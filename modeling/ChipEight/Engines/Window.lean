import ChipEight.Machine.Sprites
import ChipEight.Machine.Interactive
import ChipEight.Machine.Subscripts

/-! The window of ncurses_io.c.

`draw_io` and `clearscreen_io` write the display and a pad side by side, and the terminal shows
the pad as of its last refresh. Of ncurses only what its manual says of the calls is used.
-/

set_option autoImplicit false

namespace ChipEight

inductive Glyph where
  | blank
  /-- `ACS_CKBOARD`. -/
  | board
  | border
  deriving DecidableEq

/-- The calls of ncurses that make, write and show the pad. A pad has `size` rows and columns; `cell`
is what it holds and `shown` what the terminal shows. Whether `prefresh` takes a rectangle is up to
the terminal: `refresh_io` asks for a row and a column more than the pad has. `wgetch`, which reads
the keys, does not refresh a pad. -/
structure Curses (C : Type) where
  size : C → Nat × Nat
  cell : C → Nat → Nat → Glyph
  shown : C → Nat → Nat → Glyph
  newpad : Nat → Nat → C → C
  box : C → C
  mvwaddch : Nat → Nat → Glyph → C → C
  wclear : C → C
  prefresh : Nat → Nat → C → C
  takes : Nat → Nat → C → Bool
  size_newpad (rows cols : Nat) (s : C) : size (newpad rows cols s) = (rows, cols)
  size_box (s : C) : size (box s) = size s
  size_mvwaddch (r c : Nat) (g : Glyph) (s : C) : size (mvwaddch r c g s) = size s
  size_wclear (s : C) : size (wclear s) = size s
  size_prefresh (r c : Nat) (s : C) : size (prefresh r c s) = size s
  cell_newpad (rows cols : Nat) (s : C) (r c : Nat) : cell (newpad rows cols s) r c = .blank
  /-- A box runs along the edges. -/
  cell_box (s : C) (r c : Nat) : cell (box s) r c =
    if r = 0 ∨ r + 1 = (size s).1 ∨ c = 0 ∨ c + 1 = (size s).2 then .border else cell s r c
  cell_mvwaddch (s : C) {r c : Nat} (g : Glyph) (row : r < (size s).1) (col : c < (size s).2)
    (r' c' : Nat) : cell (mvwaddch r c g s) r' c' = if r' = r ∧ c' = c then g else cell s r' c'
  cell_wclear (s : C) (r c : Nat) : cell (wclear s) r c = .blank
  cell_prefresh (s : C) (maxRow maxCol : Nat) : cell (prefresh maxRow maxCol s) = cell s
  shown_mvwaddch (s : C) (r c : Nat) (g : Glyph) : shown (mvwaddch r c g s) = shown s
  shown_wclear (s : C) : shown (wclear s) = shown s
  shown_prefresh (s : C) (maxRow maxCol : Nat) (taken : takes maxRow maxCol s = true) {r c : Nat}
    (row : r < (size s).1) (col : c < (size s).2) (inRow : r ≤ maxRow) (inCol : c ≤ maxCol) :
    shown (prefresh maxRow maxCol s) r c = cell s r c

/-- The variables of ncurses_io.c. -/
structure Io (C : Type) where
  screen : Screen
  window : C

/-- `new_pixel ? ACS_CKBOARD : ' '`. -/
def glyph (pixel : Byte) : Glyph := if pixel ≠ 0#8 then .board else .blank

namespace Io

section
variable {C : Type} (curses : Curses C)

def refreshIo (io : Io C) : Io C :=
  { io with window := curses.prefresh (io.screen.height + 3) (io.screen.width + 2) io.window }

def initIo (width height : Nat) (c : C) : Io C :=
  refreshIo curses ⟨.initIo width height, curses.box (curses.newpad (height + 3) (width + 2) c)⟩

/-- The body of the inner loop of `draw_io`, as in `Screen.drawPixel`, with the window. -/
def drawPixel (x y : Nat) (byte : Byte) (j : Nat) (st : Io C × Byte) (i : Nat) : Io C × Byte :=
  let io := st.1
  let x2 := i + x
  let y2 := j + y
  if x2 ≥ io.screen.width then st
  else
    let bit := flag (byte &&& 0x80#8 >>> i != 0#8)
    let oldPixel := io.screen.display (x2 + y2 * io.screen.width)
    let newPixel := oldPixel ^^^ bit
    ({ screen := { io.screen with
        display := Function.update io.screen.display (x2 + y2 * io.screen.width) newPixel }
       window := curses.mvwaddch (y2 + 1) (x2 + 1) (glyph newPixel) io.window },
      if oldPixel != 0#8 && bit != 0#8 then st.2 ||| 1#8 else st.2)

def drawRow (x y : Nat) (mem : List Byte) (st : Io C × Byte) (j : Nat) : Io C × Byte :=
  if j + y ≥ st.1.screen.height then st
  else (List.range 8).foldl (drawPixel curses x y (mem.getD j 0#8) j) st

def drawIo (io : Io C) (x y n : Nat) (mem : List Byte) : Io C × Byte :=
  (List.range n).foldl (drawRow curses (x % io.screen.width) (y % io.screen.height) mem) (io, 0#8)

def clearscreenIo (io : Io C) : Io C := ⟨io.screen.clearscreenIo, curses.wclear io.window⟩

/-! ## What a call leaves -/

variable {curses}

/-- The interior of the pad holds the display. -/
structure Mirrors (curses : Curses C) (io : Io C) : Prop where
  size : curses.size io.window = (io.screen.height + 3, io.screen.width + 2)
  pixels : ∀ x < io.screen.width, ∀ y < io.screen.height,
    curses.cell io.window (y + 1) (x + 1) = glyph (io.screen.display (x + y * io.screen.width))

/-- A cell of the pad that stands for no pixel. -/
def Edge (screen : Screen) (r c : Nat) : Prop :=
  r = 0 ∨ screen.height < r ∨ c = 0 ∨ screen.width < c

/-- The second state of the window is the first one with other pixels. -/
structure Drawn (curses : Curses C) (io io' : Io C) : Prop where
  width : io'.screen.width = io.screen.width
  height : io'.screen.height = io.screen.height
  mirrors : Mirrors curses io → Mirrors curses io'
  shown : curses.shown io'.window = curses.shown io.window
  edge : Mirrors curses io → ∀ r c, Edge io.screen r c →
    curses.cell io'.window r c = curses.cell io.window r c

theorem Drawn.refl (io : Io C) : Drawn curses io io :=
  ⟨rfl, rfl, id, rfl, fun _ _ _ _ => rfl⟩

theorem Drawn.trans {io io' io'' : Io C} (first : Drawn curses io io')
    (second : Drawn curses io' io'') : Drawn curses io io'' where
  width := second.width.trans first.width
  height := second.height.trans first.height
  mirrors mirrors := second.mirrors (first.mirrors mirrors)
  shown := second.shown.trans first.shown
  edge mirrors r c outside := by
    have outside' : Edge io'.screen r c := by
      unfold Edge
      rw [first.width, first.height]
      exact outside
    exact (second.edge (first.mirrors mirrors) r c outside').trans
      (first.edge mirrors r c outside)

theorem drawPixel_drawn (x y : Nat) (byte : Byte) (j i : Nat) (st : Io C × Byte)
    (below : j + y < st.1.screen.height) :
    Drawn curses st.1 (drawPixel curses x y byte j st i).1 := by
  unfold drawPixel
  dsimp only
  split
  · exact .refl _
  · rename_i clipped
    have inside : i + x < st.1.screen.width := Nat.lt_of_not_le clipped
    refine ⟨rfl, rfl, fun mirrors => ⟨?_, fun x' inside' y' below' => ?_⟩, curses.shown_mvwaddch ..,
      fun mirrors r c outside => ?_⟩
    · rw [curses.size_mvwaddch]
      exact mirrors.size
    · have written := curses.cell_mvwaddch st.1.window (r := j + y + 1) (c := i + x + 1)
        (glyph (st.1.screen.display (i + x + (j + y) * st.1.screen.width) ^^^
          flag (byte &&& 0x80#8 >>> i != 0#8)))
        (by rw [mirrors.size]; dsimp only; omega) (by rw [mirrors.size]; dsimp only; omega)
        (y' + 1) (x' + 1)
      dsimp only at inside' below' ⊢
      rw [written, Function.update_apply]
      -- The cell of the pixel shows its new value, and the others what they showed.
      by_cases here : x' = i + x ∧ y' = j + y
      · obtain ⟨rfl, rfl⟩ := here
        rw [if_pos ⟨rfl, rfl⟩, if_pos rfl]
      · rw [if_neg fun same => here ⟨by omega, by omega⟩,
          if_neg fun same => here (Screen.cell_injective inside' inside same)]
        exact mirrors.pixels x' inside' y' below'
    · have written := curses.cell_mvwaddch st.1.window (r := j + y + 1) (c := i + x + 1)
        (glyph (st.1.screen.display (i + x + (j + y) * st.1.screen.width) ^^^
          flag (byte &&& 0x80#8 >>> i != 0#8)))
        (by rw [mirrors.size]; dsimp only; omega) (by rw [mirrors.size]; dsimp only; omega) r c
      rw [written, if_neg]
      rintro ⟨rfl, rfl⟩
      unfold Edge at outside
      omega

theorem drawRow_drawn (x y : Nat) (mem : List Byte) (st : Io C × Byte) (j : Nat) :
    Drawn curses st.1 (drawRow curses x y mem st j).1 := by
  unfold drawRow
  split
  · exact .refl _
  · rename_i clipped
    have below : j + y < st.1.screen.height := Nat.lt_of_not_le clipped
    generalize List.range 8 = is
    clear clipped
    induction is generalizing st with
    | nil => exact .refl _
    | cons i is ih =>
      have first := @drawPixel_drawn C curses x y (mem.getD j 0#8) j i st below
      exact first.trans (ih _ (first.height ▸ below))

theorem drawIo_drawn (io : Io C) (x y n : Nat) (mem : List Byte) :
    Drawn curses io (io.drawIo curses x y n mem).1 := by
  unfold drawIo
  generalize x % io.screen.width = x, y % io.screen.height = y
  suffices rows : ∀ (js : List Nat) (st : Io C × Byte),
      Drawn curses st.1 (js.foldl (drawRow curses x y mem) st).1 from rows _ (io, 0#8)
  intro js st
  induction js generalizing st with
  | nil => exact .refl _
  | cons j js ih => exact (drawRow_drawn x y mem st j).trans (ih _)

theorem drawIo_screen (io : Io C) (x y n : Nat) (mem : List Byte) :
    ((io.drawIo curses x y n mem).1.screen, (io.drawIo curses x y n mem).2) =
      io.screen.drawIo x y n mem := by
  have pixel (x y : Nat) (byte : Byte) (j : Nat) (st : Io C × Byte) (i : Nat) :
      ((drawPixel curses x y byte j st i).1.screen, (drawPixel curses x y byte j st i).2) =
        Screen.drawPixel x y byte j (st.1.screen, st.2) i := by
    unfold drawPixel Screen.drawPixel
    dsimp only
    split <;> rfl
  have row (x y : Nat) (st : Io C × Byte) (j : Nat) :
      ((drawRow curses x y mem st j).1.screen, (drawRow curses x y mem st j).2) =
        Screen.drawRow x y mem (st.1.screen, st.2) j := by
    unfold drawRow Screen.drawRow
    dsimp only
    split
    · rfl
    · rename_i visible
      clear visible
      generalize List.range 8 = is
      induction is generalizing st with
      | nil => rfl
      | cons i is ih => rw [List.foldl_cons, List.foldl_cons, ← pixel]; exact ih _
  unfold drawIo Screen.drawIo
  -- The framebuffer does not depend on the pad.
  suffices rows : ∀ (x y : Nat) (js : List Nat) (st : Io C × Byte),
      ((js.foldl (drawRow curses x y mem) st).1.screen,
        (js.foldl (drawRow curses x y mem) st).2) =
      js.foldl (Screen.drawRow x y mem) (st.1.screen, st.2) from rows _ _ _ (io, 0#8)
  intro x y js st
  induction js generalizing st with
  | nil => rfl
  | cons j js ih => rw [List.foldl_cons, List.foldl_cons, ← row]; exact ih _

theorem initIo_mirrors (width height : Nat) (c : C) :
    Mirrors curses (initIo curses width height c) := by
  have size : curses.size (initIo curses width height c).window = (height + 3, width + 2) := by
    rw [initIo, refreshIo, curses.size_prefresh, curses.size_box, curses.size_newpad]
  refine ⟨size, fun x inside y below => ?_⟩
  show curses.cell (curses.prefresh _ _ _) _ _ = glyph 0#8
  rw [curses.cell_prefresh, curses.cell_box, curses.size_newpad, curses.cell_newpad, if_neg]
  · rfl
  · have inside : x < width := inside
    have below : y < height := below
    dsimp only
    omega

theorem clearscreenIo_mirrors {io : Io C} (mirrors : Mirrors curses io)
    (small : io.screen.width * io.screen.height ≤ Screen.displaySize) :
    Mirrors curses (io.clearscreenIo curses) := by
  refine ⟨(curses.size_wclear _).trans mirrors.size, fun x inside y below => ?_⟩
  have inside : x < io.screen.width := inside
  have below : y < io.screen.height := below
  have cell : x + y * io.screen.width < Screen.displaySize := by
    refine Nat.lt_of_lt_of_le ?_ small
    calc
      x + y * io.screen.width < io.screen.width + y * io.screen.width :=
        Nat.add_lt_add_right inside _
      _ = io.screen.width * (y + 1) := by rw [Nat.mul_add, Nat.mul_one, Nat.mul_comm, Nat.add_comm]
      _ ≤ io.screen.width * io.screen.height := Nat.mul_le_mul_left _ below
  show curses.cell (curses.wclear _) _ _ = glyph (if _ then 0#8 else _)
  rw [curses.cell_wclear]
  show glyph 0#8 = _
  exact (congrArg glyph (if_pos cell)).symm

theorem Mirrors.refresh {io : Io C} (mirrors : Mirrors curses io) :
    Mirrors curses (io.refreshIo curses) := by
  refine ⟨(curses.size_prefresh ..).trans mirrors.size, fun x inside y below => ?_⟩
  show curses.cell (curses.prefresh _ _ _) _ _ = _
  rw [curses.cell_prefresh]
  exact mirrors.pixels x inside y below

theorem Mirrors.shows {io : Io C} (mirrors : Mirrors curses io)
    (taken : curses.takes (io.screen.height + 3) (io.screen.width + 2) io.window = true) {x y : Nat}
    (inside : x < io.screen.width) (below : y < io.screen.height) :
    curses.shown (io.refreshIo curses).window (y + 1) (x + 1) =
      glyph (io.screen.display (x + y * io.screen.width)) := by
  show curses.shown (curses.prefresh _ _ _) _ _ = _
  rw [curses.shown_prefresh _ _ _ taken (by rw [mirrors.size]; dsimp only; omega)
    (by rw [mirrors.size]; dsimp only; omega) (by omega) (by omega)]
  exact mirrors.pixels x inside y below

end

end Io

/-! ## Engines -/

/-- The instruction at the program counter. -/
def VM.current (vm : VM) : Option Insn := decode (opcodeAt vm.memory vm.programCounter)

/-- The display behind an instruction. -/
def Insn.screenAfter (vm : VM) : Insn → Screen
  | .cls => vm.screen.clearscreenIo
  | .drw x y n => (vm.drawSprite x y n).screen
  | _ => vm.screen

theorem basicBlock_screen {E : Type} (P : Platform E) (s : State E) :
    (Interpreter.basicBlock P s).2.vm.screen =
      s.vm.current.elim s.vm.screen (Insn.screenAfter s.vm) := by
  rw [basicBlock_eq, VM.current]
  cases decode (opcodeAt s.vm.memory s.vm.programCounter) with
  | none => rfl
  | some i =>
    dsimp only [Option.elim_some]
    by_cases cls : i = .cls
    · subst cls
      rfl
    by_cases drw : ∃ x y n, i = .drw x y n
    · obtain ⟨x, y, n, rfl⟩ := drw
      rfl
    · rw [exec_screen P _ cls (fun x y n same => drw ⟨x, y, n, same⟩) s]
      cases i with
      | cls => exact absurd rfl cls
      | drw x y n => exact absurd ⟨x, y, n, rfl⟩ drw
      | _ => rfl

theorem basicBlock_flags {E : Type} (P : Platform E) {s : State E} {x y n : Reg}
    (draws : s.vm.current = some (.drw x y n)) :
    (Interpreter.basicBlock P s).2.vm.regs 15#4 = (s.vm.drawSprite x y n).regs 15#4 := by
  unfold VM.current at draws
  rw [basicBlock_eq, draws]
  rfl

/-- A loop around `basic_block` as the window sees it: the machine, and the instruction a step
executes, if it executes one. -/
structure Engine (S : Type) where
  step : S → Option S
  vm : S → VM
  executes : S → Option Insn
  screen {s t : S} (next : step s = some t) :
    (vm t).screen = (executes s).elim (vm s).screen (Insn.screenAfter (vm s))
  flags {s t : S} {x y n : Reg} (next : step s = some t) (draws : executes s = some (.drw x y n)) :
    (vm t).regs 15#4 = ((vm s).drawSprite x y n).regs 15#4

/-- The loop of `main` on any platform. -/
def mainEngine {E : Type} (P : Platform E) : Engine (State E) where
  step := mainStep P
  vm := State.vm
  executes s := s.vm.current
  screen {s t} next := by
    have executed := (blockStep_eq_some P).mp ((mainStep_eq_some P).mp next).2
    have after := basicBlock_screen P { s with env := (P.allKeysDown s.env).2 }
    rw [executed] at after
    exact after
  flags {s t x y n} next draws := by
    have executed := (blockStep_eq_some P).mp ((mainStep_eq_some P).mp next).2
    have after := @basicBlock_flags E P { s with env := (P.allKeysDown s.env).2 } x y n draws
    rw [executed] at after
    exact after

/-- The instruction a step of the interactive `main` executes: none where it stops, or waits. -/
def Main.executes (elideIdle : Bool) (m : Main) : Option Insn :=
  match m.phase with
  | .loop =>
    if m.state.env.quitting || (elided elideIdle m.state).isSome then none else m.state.vm.current
  | _ => none

/-- Only a step that executes an instruction changes more than registers and the program counter. -/
theorem liveStep_executes {o : Outside} {undefinedShift : Byte → BitVec 32} {elideIdle : Bool}
    {m m' : Main} (next : liveStep o undefinedShift elideIdle m = some m') :
    m.executes elideIdle = none ∧ m'.state.vm.screen = m.state.vm.screen ∨
      m.executes elideIdle = m.state.vm.current ∧
        m'.state.vm = (Interpreter.basicBlock (livePlatform o undefinedShift) m.state).2.vm := by
  obtain ⟨phase, s⟩ := m
  cases phase with
  | loop =>
    cases next
    unfold mainPass Main.executes
    dsimp only
    cases quits : s.env.quitting with
    | true => exact .inl ⟨rfl, rfl⟩
    | false =>
      rw [if_neg Bool.false_ne_true]
      cases waits : elided elideIdle s with
      | some reg => exact .inl ⟨rfl, rfl⟩
      | none =>
        refine .inr ⟨rfl, ?_⟩
        dsimp only
        split <;> rfl
  | idleWait reg =>
    cases next
    refine .inl ⟨rfl, ?_⟩
    unfold idlePass
    split <;> rfl
  | finished => cases next

/-- The loop of the interactive `main`, with `--elide-idle` or without. -/
def liveEngine (o : Outside) (undefinedShift : Byte → BitVec 32) (elideIdle : Bool) :
    Engine Main where
  step := liveStep o undefinedShift elideIdle
  vm m := m.state.vm
  executes := Main.executes elideIdle
  screen {m m'} next := by
    obtain ⟨waits, same⟩ | ⟨executes, after⟩ := liveStep_executes next
    · rw [waits]
      exact same
    · rw [executes, after]
      exact basicBlock_screen _ _
  flags {m m' x y n} next draws := by
    obtain ⟨waits, -⟩ | ⟨executes, after⟩ := liveStep_executes next
    · rw [waits] at draws
      cases draws
    · rw [executes] at draws
      rw [after]
      exact basicBlock_flags _ draws

/-! ## Runs -/

section
variable {C S : Type} (curses : Curses C) (engine : Engine S)

/-- The calls an instruction makes of ncurses_io.c; the variables are those it starts with. -/
def Insn.paint (vm : VM) (io : Io C) : Insn → Io C
  | .cls => io.clearscreenIo curses
  | .drw x y n =>
    (io.drawIo curses (vm.regs x).toNat (vm.regs y).toNat n.toNat
      ((List.range n.toNat).map vm.memAt)).1.refreshIo curses
  | _ => io

/-- A step with the window. -/
def paintStep (w : S × Io C) : Option (S × Io C) :=
  (engine.step w.1).map fun t =>
    (t, (engine.executes w.1).elim w.2 (Insn.paint curses (engine.vm w.1) w.2))

variable {curses} {engine}

theorem paint_size (i : Insn) (vm : VM) (io : Io C) :
    (i.paint curses vm io).screen.width = io.screen.width ∧
      (i.paint curses vm io).screen.height = io.screen.height := by
  cases i with
  | drw x y n =>
    have drawn := @Io.drawIo_drawn C curses io (vm.regs x).toNat (vm.regs y).toNat n.toNat
      ((List.range n.toNat).map vm.memAt)
    exact ⟨drawn.width, drawn.height⟩
  | _ => exact ⟨rfl, rfl⟩

theorem paint_screen {vm : VM} {io : Io C} (same : io.screen = vm.screen) (i : Insn) :
    (i.paint curses vm io).screen = i.screenAfter vm := by
  cases i with
  | cls => exact congrArg Screen.clearscreenIo same
  | drw x y n =>
    have drawn := @Io.drawIo_screen C curses io (vm.regs x).toNat (vm.regs y).toNat n.toNat
      ((List.range n.toNat).map vm.memAt)
    exact (congrArg Prod.fst drawn).trans (by rw [same]; rfl)
  | _ => exact same

variable (curses) (engine)

/-- What the pad and the terminal hold, `n` steps into the run. -/
structure Painted (start : S) (n : Nat) (s : S) (io : Io C) : Prop where
  run : Run.after engine.step n start = some s
  screen : io.screen = (engine.vm s).screen
  display : io.screen.width = 64 ∧ io.screen.height = 32
  size : curses.size io.window = (35, 66)
  pad : ∀ x < 64, ∀ y < 32, curses.cell io.window (y + 1) (x + 1) =
    glyph ((engine.vm s).screen.display (x + y * 64))
  /-- The terminal shows the display behind the last `DRW`, or the first one. -/
  terminal : ∃ k u, k ≤ n ∧ Run.after engine.step k start = some u ∧
    (k = 0 ∨ ∃ j v x y h, k = j + 1 ∧ Run.after engine.step j start = some v ∧
      engine.executes v = some (.drw x y h)) ∧
    (∀ x < 64, ∀ y < 32, curses.shown io.window (y + 1) (x + 1) =
      glyph ((engine.vm u).screen.display (x + y * 64))) ∧
    ∀ j v, k ≤ j → j < n → Run.after engine.step j start = some v →
      ∀ x y h, engine.executes v ≠ some (.drw x y h)
  /-- The box of `init_io` stays until the first `CLS` and is never drawn again. -/
  edge : ∀ r < 35, ∀ c < 66, r = 0 ∨ 32 < r ∨ c = 0 ∨ 64 < c →
    (∀ j v, j < n → Run.after engine.step j start = some v → engine.executes v ≠ some .cls) ∧
        curses.cell io.window r c = (if r = 0 ∨ r = 34 ∨ c = 0 ∨ c = 65 then .border else .blank) ∨
      (∃ j v, j < n ∧ Run.after engine.step j start = some v ∧ engine.executes v = some .cls) ∧
        curses.cell io.window r c = .blank
  /-- The window reports the collision the next instruction stores. -/
  collision : ∀ t x y h, engine.step s = some t → engine.executes s = some (.drw x y h) →
    (engine.vm t).regs 15#4 = (io.drawIo curses ((engine.vm s).regs x).toNat
      ((engine.vm s).regs y).toNat h.toNat ((List.range h.toNat).map (engine.vm s).memAt)).2

variable {curses} {engine}

theorem Painted.mirrors {start s : S} {n : Nat} {io : Io C} (painted : Painted curses engine start n s io) :
    Io.Mirrors curses io where
  size := by
    rw [painted.display.1, painted.display.2]
    exact painted.size
  pixels x inside y below := by
    rw [painted.display.1] at inside ⊢
    rw [painted.display.2] at below
    rw [painted.screen]
    exact painted.pad x inside y below

theorem Painted.of_mirrors {start s : S} {n : Nat} {io : Io C}
    (run : Run.after engine.step n start = some s) (screen : io.screen = (engine.vm s).screen)
    (display : io.screen.width = 64 ∧ io.screen.height = 32) (mirrors : Io.Mirrors curses io)
    (terminal : ∃ k u, k ≤ n ∧ Run.after engine.step k start = some u ∧
      (k = 0 ∨ ∃ j v x y h, k = j + 1 ∧ Run.after engine.step j start = some v ∧
        engine.executes v = some (.drw x y h)) ∧
      (∀ x < 64, ∀ y < 32, curses.shown io.window (y + 1) (x + 1) =
        glyph ((engine.vm u).screen.display (x + y * 64))) ∧
      ∀ j v, k ≤ j → j < n → Run.after engine.step j start = some v →
        ∀ x y h, engine.executes v ≠ some (.drw x y h))
    (edge : ∀ r < 35, ∀ c < 66, r = 0 ∨ 32 < r ∨ c = 0 ∨ 64 < c →
      (∀ j v, j < n → Run.after engine.step j start = some v → engine.executes v ≠ some .cls) ∧
          curses.cell io.window r c =
            (if r = 0 ∨ r = 34 ∨ c = 0 ∨ c = 65 then .border else .blank) ∨
        (∃ j v, j < n ∧ Run.after engine.step j start = some v ∧ engine.executes v = some .cls) ∧
          curses.cell io.window r c = .blank) :
    Painted curses engine start n s io := by
  have size := mirrors.size
  have pixels := mirrors.pixels
  rw [display.1, display.2] at size pixels
  rw [screen] at pixels
  refine ⟨run, screen, display, size, pixels, terminal, edge, fun t x y h next draws => ?_⟩
  have drawn := @Io.drawIo_screen C curses io ((engine.vm s).regs x).toNat ((engine.vm s).regs y).toNat
    h.toNat ((List.range h.toNat).map (engine.vm s).memAt)
  rw [engine.flags next draws, congrArg Prod.snd drawn, screen]
  simp [VM.drawSprite, VM.setFlags, VM.setReg]

theorem Painted.step {start s t : S} {n : Nat} {io : Io C}
    (taken : ∀ w, curses.size w = (35, 66) → curses.takes 35 66 w = true)
    (painted : Painted curses engine start n s io) (next : engine.step s = some t) :
    Painted curses engine start (n + 1) t
      ((engine.executes s).elim io (Insn.paint curses (engine.vm s) io)) := by
  have run : Run.after engine.step (n + 1) start = some t :=
    Run.after_succ.mpr ⟨s, painted.run, next⟩
  have screen := engine.screen next
  -- The states of a run are told apart by their numbers.
  have last {j : Nat} {v : S} (within : j < n + 1)
      (reached : Run.after engine.step j start = some v) : j < n ∨ j = n ∧ v = s := by
    rcases Nat.lt_or_eq_of_le (Nat.le_of_lt_succ within) with earlier | rfl
    · exact .inl earlier
    · exact .inr ⟨rfl, Option.some.inj (reached.symm.trans painted.run)⟩
  -- The terminal where no `DRW` is executed.
  have unshown {io' : Io C} (same : curses.shown io'.window = curses.shown io.window)
      (notDrw : ∀ x y h, engine.executes s ≠ some (.drw x y h)) :
      ∃ k u, k ≤ n + 1 ∧ Run.after engine.step k start = some u ∧
        (k = 0 ∨ ∃ j v x y h, k = j + 1 ∧ Run.after engine.step j start = some v ∧
          engine.executes v = some (.drw x y h)) ∧
        (∀ x < 64, ∀ y < 32, curses.shown io'.window (y + 1) (x + 1) =
          glyph ((engine.vm u).screen.display (x + y * 64))) ∧
        ∀ j v, k ≤ j → j < n + 1 → Run.after engine.step j start = some v →
          ∀ x y h, engine.executes v ≠ some (.drw x y h) := by
    obtain ⟨k, u, early, reached, drew, shows, since⟩ := painted.terminal
    refine ⟨k, u, Nat.le_succ_of_le early, reached, drew, same ▸ shows, ?_⟩
    intro j v after within reached' x y h
    rcases last within reached' with earlier | ⟨rfl, rfl⟩
    · exact since j v after earlier reached' x y h
    · exact notDrw x y h
  -- The cells around the display where no `CLS` is executed.
  have around {io' : Io C}
      (same : ∀ r c, Io.Edge io.screen r c → curses.cell io'.window r c = curses.cell io.window r c)
      (notCls : engine.executes s ≠ some .cls) : ∀ r < 35, ∀ c < 66, r = 0 ∨ 32 < r ∨ c = 0 ∨ 64 < c →
      (∀ j v, j < n + 1 → Run.after engine.step j start = some v → engine.executes v ≠ some .cls) ∧
          curses.cell io'.window r c =
            (if r = 0 ∨ r = 34 ∨ c = 0 ∨ c = 65 then .border else .blank) ∨
        (∃ j v, j < n + 1 ∧ Run.after engine.step j start = some v ∧
          engine.executes v = some .cls) ∧ curses.cell io'.window r c = .blank := by
    intro r row c col outside
    have edge : Io.Edge io.screen r c := by
      unfold Io.Edge
      rw [painted.display.1, painted.display.2]
      exact outside
    rw [same r c edge]
    rcases painted.edge r row c col outside with ⟨never, intact⟩ | ⟨⟨j, v, earlier, cleared⟩, wiped⟩
    · refine .inl ⟨fun j v within reached => ?_, intact⟩
      rcases last within reached with earlier | ⟨rfl, rfl⟩
      · exact never j v earlier reached
      · exact notCls
    · exact .inr ⟨⟨j, v, Nat.lt_succ_of_lt earlier, cleared⟩, wiped⟩
  -- A step that leaves the window alone.
  have quiet (still : (engine.vm t).screen = (engine.vm s).screen)
      (notCls : engine.executes s ≠ some .cls)
      (notDrw : ∀ x y h, engine.executes s ≠ some (.drw x y h)) :
      Painted curses engine start (n + 1) t io :=
    .of_mirrors run (painted.screen.trans still.symm) painted.display painted.mirrors
      (unshown rfl notDrw) (around (fun _ _ _ => rfl) notCls)
  cases executes : engine.executes s with
  | none =>
    rw [executes] at screen
    exact quiet screen (by rw [executes]; exact nofun) (by rw [executes]; exact nofun)
  | some i =>
  rw [executes] at screen
  rw [Option.elim_some] at screen ⊢
  have painting := @paint_screen C curses (engine.vm s) io painted.screen i
  rw [← screen] at painting
  obtain ⟨width, height⟩ := @paint_size C curses i (engine.vm s) io
  cases i with
  | cls =>
    refine .of_mirrors run painting painted.display ?_ (unshown (curses.shown_wclear _) ?_) ?_
    · refine Io.clearscreenIo_mirrors painted.mirrors ?_
      rw [painted.display.1, painted.display.2]
      decide
    · rw [executes]
      exact fun _ _ _ => nofun
    · intro r _ c _ _
      exact .inr ⟨⟨n, s, Nat.lt_succ_self n, painted.run, executes⟩, curses.cell_wclear ..⟩
  | drw x y h =>
    have drawn := @Io.drawIo_drawn C curses io ((engine.vm s).regs x).toNat
      ((engine.vm s).regs y).toNat h.toNat ((List.range h.toNat).map (engine.vm s).memAt)
    have mirrors := drawn.mirrors painted.mirrors
    have wide := width.trans painted.display.1
    have high := height.trans painted.display.2
    refine .of_mirrors run painting ⟨wide, high⟩ mirrors.refresh ?_ (around ?_ ?_)
    · refine ⟨n + 1, t, Nat.le_refl _, run, .inr ⟨n, s, x, y, h, rfl, painted.run, executes⟩,
        fun x' inside y' below => ?_, fun j v after within => absurd within (Nat.not_lt.mpr after)⟩
      have wide' := drawn.width.trans painted.display.1
      have high' := drawn.height.trans painted.display.2
      have size := mirrors.size
      rw [wide', high'] at size
      have shows := @Io.Mirrors.shows C curses _ mirrors
        (by rw [wide', high']; exact taken _ size) x' y' (by rw [wide']; exact inside)
        (by rw [high']; exact below)
      rw [wide'] at shows
      exact shows.trans (congrArg (fun screen : Screen => glyph (screen.display (x' + y' * 64)))
        painting)
    · intro r c outside
      refine Eq.trans ?_ (drawn.edge painted.mirrors r c outside)
      exact congrFun (congrFun (curses.cell_prefresh _ _ _) r) c
    · rw [executes]
      exact nofun
  | _ =>
    exact quiet screen (by rw [executes]; exact nofun) (by rw [executes]; exact fun _ _ _ => nofun)

theorem start_painted (c : C) {start : S}
    (taken : ∀ w, curses.size w = (35, 66) → curses.takes 35 66 w = true)
    (clear : (engine.vm start).screen = .initIo 64 32) :
    Painted curses engine start 0 start (Io.initIo curses 64 32 c) := by
  have mirrors := @Io.initIo_mirrors C curses 64 32 c
  refine .of_mirrors rfl clear.symm ⟨rfl, rfl⟩ mirrors ?_ ?_
  · refine ⟨0, start, Nat.le_refl 0, rfl, .inl rfl, fun x inside y below => ?_,
      fun j v _ within => absurd within (Nat.not_lt_zero j)⟩
    have before : Io.Mirrors curses ⟨.initIo 64 32, curses.box (curses.newpad 35 66 c)⟩ := by
      refine ⟨(curses.size_prefresh ..).symm.trans mirrors.size, fun x inside y below => ?_⟩
      refine Eq.trans ?_ (mirrors.pixels x inside y below)
      exact (congrFun (congrFun (curses.cell_prefresh _ _ _) _) _).symm
    rw [clear]
    exact before.shows (taken _ before.size) inside below
  · intro r row c' col _
    refine .inl ⟨fun j _ within => absurd within (Nat.not_lt_zero j), ?_⟩
    show curses.cell (curses.prefresh _ _ (curses.box (curses.newpad 35 66 c))) r c' = _
    rw [curses.cell_prefresh, curses.cell_box, curses.size_newpad, curses.cell_newpad]
    simp only [Nat.reduceEqDiff]

theorem run_painted {start s : S} {n : Nat} {c : C} {io : Io C}
    (taken : ∀ w, curses.size w = (35, 66) → curses.takes 35 66 w = true)
    (clear : (engine.vm start).screen = .initIo 64 32)
    (run : Run.after (paintStep curses engine) n (start, Io.initIo curses 64 32 c) = some (s, io)) :
    Painted curses engine start n s io := by
  induction n generalizing s io with
  | zero =>
    cases run
    exact start_painted c taken clear
  | succ n ih =>
    obtain ⟨⟨s', io'⟩, earlier, last⟩ := Run.after_succ.mp run
    obtain ⟨t, next, same⟩ := Option.map_eq_some_iff.mp last
    cases same
    exact (ih earlier).step taken next

end

/-- In every run of the interpreter, on any platform or with `--elide-idle`, the pad holds the
display, pixel for pixel, and a terminal that takes what `refresh_io` asks for shows the display as
the last `DRW` left it; a `CLS` shows with the next `DRW` only. `draw_io` reports the collision the
instruction stores, and around the display there is the box of `init_io`, up to the first `CLS`, and
nothing from then on. -/
theorem window_mirrors {C : Type} (curses : Curses C)
    (taken : ∀ w, curses.size w = (35, 66) → curses.takes 35 66 w = true) (rom : List Byte) (c : C) :
    (∀ {E : Type} (P : Platform E) (env : E) (n : Nat) (s : State E) (io : Io C),
      Run.after (paintStep curses (mainEngine P)) n (⟨VM.boot rom, env⟩, Io.initIo curses 64 32 c) =
          some (s, io) →
        Painted curses (mainEngine P) ⟨VM.boot rom, env⟩ n s io) ∧
    ∀ (o : Outside) (undefinedShift : Byte → BitVec 32) (elideIdle : Bool) (tick : Int) (n : Nat)
      (m : Main) (io : Io C),
      Run.after (paintStep curses (liveEngine o undefinedShift elideIdle)) n
          (Main.boot rom tick, Io.initIo curses 64 32 c) = some (m, io) →
        Painted curses (liveEngine o undefinedShift elideIdle) (Main.boot rom tick) n m io :=
  ⟨fun _ _ _ _ _ run => run_painted taken rfl run, fun _ _ _ _ _ _ _ run => run_painted taken rfl run⟩

/-! ## A terminal -/

structure Pad where
  rows : Nat
  cols : Nat
  grid : Nat → Nat → Glyph
  terminal : Nat → Nat → Glyph

def padCurses : Curses Pad where
  size s := (s.rows, s.cols)
  cell := Pad.grid
  shown := Pad.terminal
  newpad rows cols s := ⟨rows, cols, fun _ _ => .blank, s.terminal⟩
  box s := { s with grid := fun r c =>
    if r = 0 ∨ r + 1 = s.rows ∨ c = 0 ∨ c + 1 = s.cols then .border else s.grid r c }
  mvwaddch r c g s :=
    if r < s.rows ∧ c < s.cols then
      { s with grid := fun r' c' => if r' = r ∧ c' = c then g else s.grid r' c' }
    else s
  wclear s := { s with grid := fun _ _ => .blank }
  prefresh maxRow maxCol s := { s with terminal := fun r c =>
    if r < s.rows ∧ c < s.cols ∧ r ≤ maxRow ∧ c ≤ maxCol then s.grid r c else s.terminal r c }
  takes _ _ _ := true
  size_newpad _ _ _ := rfl
  size_box _ := rfl
  size_mvwaddch _ _ _ _ := by split <;> rfl
  size_wclear _ := rfl
  size_prefresh _ _ _ := rfl
  cell_newpad _ _ _ _ _ := rfl
  cell_box _ _ _ := rfl
  cell_mvwaddch _ _ _ _ row col _ _ := by rw [if_pos ⟨row, col⟩]
  cell_wclear _ _ _ := rfl
  cell_prefresh _ _ _ := rfl
  shown_mvwaddch _ _ _ _ := by split <;> rfl
  shown_wclear _ := rfl
  shown_prefresh _ _ _ _ _ _ row col inRow inCol := if_pos ⟨row, col, inRow, inCol⟩

/-- `DRW V0, V0, 1; CLS`. -/
def drawsAndClears : List Byte := [0xd0, 0x01, 0x00, 0xe0]

/-- The font's first row is on the terminal although the display is clear. -/
theorem window_mirrors_drawsAndClears :
    ∃ w, Run.after (paintStep padCurses (mainEngine (tapePlatform quietTape fun _ => 0#32))) 2
        (⟨VM.boot drawsAndClears, .start⟩,
          Io.initIo padCurses 64 32 ⟨0, 0, fun _ _ => .blank, fun _ _ => .blank⟩) = some w ∧
      padCurses.shown w.2.window 1 1 = .board ∧
      ∀ x < 64, ∀ y < 32, padCurses.cell w.2.window (y + 1) (x + 1) =
        glyph (w.1.vm.screen.display (x + y * 64)) := by
  have run : Run.after (paintStep padCurses (mainEngine (tapePlatform quietTape fun _ => 0#32))) 2
      (⟨VM.boot drawsAndClears, .start⟩,
        Io.initIo padCurses 64 32 ⟨0, 0, fun _ _ => .blank, fun _ _ => .blank⟩) = some (_, _) := rfl
  have painted := (window_mirrors padCurses (fun _ _ => rfl) drawsAndClears
    ⟨0, 0, fun _ _ => .blank, fun _ _ => .blank⟩).1 (tapePlatform quietTape fun _ => 0#32) .start 2 _ _
    run
  exact ⟨_, run, rfl, painted.pad⟩

end ChipEight
