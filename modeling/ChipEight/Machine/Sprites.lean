import ChipEight.Library.Involution
import ChipEight.Machine.Screen
import Mathlib.Data.List.Nodup

/-! What `draw_io` draws.

The two loops come down to a list of cells, each of which is toggled once: those a set bit
of the sprite lies on and that are on the screen. So a draw adds a mask to the display,
and draws commute and undo themselves.
-/

set_option autoImplicit false

namespace ChipEight.Screen

/-! ## Cells -/

/-- The bit of a sprite in column `i` of row `j`. -/
def spriteBit (mem : List Byte) (i j : Nat) : Bool := mem.getD j 0#8 &&& 0x80#8 >>> i != 0#8

/-- The cells row `j` of a sprite at a wrapped origin toggles. -/
def rowCells (width x y : Nat) (mem : List Byte) (j : Nat) : List Nat :=
  ((List.range 8).filter fun i => i + x < width && spriteBit mem i j).map fun i =>
    i + x + (j + y) * width

/-- The cells a sprite toggles. -/
def cells (width height x y n : Nat) (mem : List Byte) : List Nat :=
  ((List.range n).filter fun j => j + y % height < height).flatMap
    (rowCells width (x % width) (y % height) mem)

/-- A cell under a set bit of a sprite. -/
def Covered (width height x y n : Nat) (mem : List Byte) (c : Nat) : Prop :=
  ∃ i < 8, ∃ j < n, x % width + i < width ∧ y % height + j < height ∧ spriteBit mem i j = true ∧
    c = x % width + i + (y % height + j) * width

instance (width height x y n : Nat) (mem : List Byte) (c : Nat) :
    Decidable (Covered width height x y n mem c) :=
  inferInstanceAs (Decidable (∃ i < 8, ∃ j < n, _))

theorem mem_cells {width height x y n : Nat} {mem : List Byte} {c : Nat} :
    c ∈ cells width height x y n mem ↔ Covered width height x y n mem c := by
  simp only [cells, rowCells, Covered, List.mem_flatMap, List.mem_filter, List.mem_map,
    List.mem_range, decide_eq_true_eq, Bool.and_eq_true]
  constructor
  · rintro ⟨j, ⟨below, visible⟩, i, ⟨inRow, onScreen, isSet⟩, rfl⟩
    exact ⟨i, inRow, j, below, by omega, by omega, isSet, by rw [Nat.add_comm i, Nat.add_comm j]⟩
  · rintro ⟨i, inRow, j, below, onScreen, visible, isSet, rfl⟩
    exact ⟨j, ⟨below, by omega⟩, i, ⟨inRow, by omega, isSet⟩,
      by rw [Nat.add_comm i, Nat.add_comm j]⟩

theorem cell_injective {width i j i' j' : Nat} (inside : i < width) (inside' : i' < width)
    (same : i + j * width = i' + j' * width) : i = i' ∧ j = j' := by
  have column := congrArg (· % width) same
  simp only [Nat.add_mul_mod_self_right, Nat.mod_eq_of_lt inside, Nat.mod_eq_of_lt inside'] at column
  have rows : j * width = j' * width := by omega
  exact ⟨column, Nat.eq_of_mul_eq_mul_right (by omega) rows⟩

theorem rowCells_nodup (width x y : Nat) (mem : List Byte) (j : Nat) :
    (rowCells width x y mem j).Nodup := by
  apply List.Nodup.map_on
  · intro i _ i' _ same
    omega
  · exact List.nodup_range.filter _

theorem cells_nodup (width height x y n : Nat) (mem : List Byte) :
    (cells width height x y n mem).Nodup := by
  apply List.nodup_flatMap.mpr
  refine ⟨fun j _ => rowCells_nodup _ _ _ mem j, ?_⟩
  apply (List.nodup_range.filter _).imp
  intro j j' apart c inRow inRow'
  simp only [rowCells, List.mem_map, List.mem_filter, Bool.and_eq_true, decide_eq_true_eq]
    at inRow inRow'
  obtain ⟨i, ⟨-, inside, -⟩, rfl⟩ := inRow
  obtain ⟨i', ⟨-, inside', -⟩, same⟩ := inRow'
  have rows := (cell_injective inside' inside same).2
  omega

/-! ## The loops -/

/-- Toggle a cell and note whether it was lit. -/
def toggle (st : Screen × Byte) (c : Nat) : Screen × Byte :=
  ({ st.1 with display := Function.update st.1.display c (st.1.display c ^^^ 1#8) },
    if st.1.display c != 0#8 then st.2 ||| 1#8 else st.2)

theorem toggleAll_size (cs : List Nat) (st : Screen × Byte) :
    (cs.foldl toggle st).1.width = st.1.width ∧ (cs.foldl toggle st).1.height = st.1.height := by
  induction cs generalizing st with
  | nil => exact ⟨rfl, rfl⟩
  | cons c cs ih => exact ih (toggle st c)

theorem drawPixel_eq (x y : Nat) (mem : List Byte) (j : Nat) (st : Screen × Byte) (i : Nat) :
    drawPixel x y (mem.getD j 0#8) j st i =
      if i + x < st.1.width && spriteBit mem i j then toggle st (i + x + (j + y) * st.1.width)
      else st := by
  unfold drawPixel spriteBit toggle
  by_cases clipped : i + x < st.1.width
  · cases mem.getD j 0#8 &&& 0x80#8 >>> i != 0#8 with
    | true => simp [clipped, flag]
    | false =>
      -- a clear bit writes the old pixel back
      simp [clipped, flag]
  · simp [clipped]

theorem drawRow_eq (x y : Nat) (mem : List Byte) (st : Screen × Byte) (j : Nat) :
    drawRow x y mem st j =
      if j + y < st.1.height then (rowCells st.1.width x y mem j).foldl toggle st else st := by
  have pixels (is : List Nat) (width : Nat) (st : Screen × Byte) (sized : st.1.width = width) :
      is.foldl (drawPixel x y (mem.getD j 0#8) j) st =
        ((is.filter fun i => i + x < width && spriteBit mem i j).map fun i =>
          i + x + (j + y) * width).foldl toggle st := by
    induction is generalizing st with
    | nil => rfl
    | cons i is ih =>
      rw [List.foldl_cons, drawPixel_eq, sized, List.filter_cons]
      split
      · rw [List.map_cons, List.foldl_cons]
        exact ih _ sized
      · exact ih st sized
  unfold drawRow
  by_cases below : j + y < st.1.height
  · rw [if_neg (by omega), if_pos below]
    exact pixels (List.range 8) st.1.width st rfl
  · rw [if_pos (by omega), if_neg below]

theorem drawIo_eq (screen : Screen) (x y n : Nat) (mem : List Byte) :
    screen.drawIo x y n mem =
      (cells screen.width screen.height x y n mem).foldl toggle (screen, 0#8) := by
  have rows (js : List Nat) (width height x y : Nat) (st : Screen × Byte)
      (size : st.1.width = width ∧ st.1.height = height) :
      js.foldl (drawRow x y mem) st =
        ((js.filter fun j => j + y < height).flatMap (rowCells width x y mem)).foldl toggle st := by
    induction js generalizing st with
    | nil => rfl
    | cons j js ih =>
      rw [List.foldl_cons, drawRow_eq, size.1, size.2, List.filter_cons]
      by_cases below : j + y < height
      · rw [if_pos below, if_pos (decide_eq_true below), List.flatMap_cons, List.foldl_append]
        apply ih
        rw [(toggleAll_size _ _).1, (toggleAll_size _ _).2]
        exact size
      · rw [if_neg below, if_neg (by simpa using below)]
        exact ih st size
  exact rows (List.range n) screen.width screen.height _ _ (screen, 0#8) ⟨rfl, rfl⟩

theorem toggleAll_spec {cs : List Nat} (once : cs.Nodup) (st : Screen × Byte) :
    (∀ c, (cs.foldl toggle st).1.display c = st.1.display c ^^^ flag (decide (c ∈ cs))) ∧
      (cs.foldl toggle st).2 =
        if ∃ c ∈ cs, st.1.display c ≠ 0#8 then st.2 ||| 1#8 else st.2 := by
  induction cs generalizing st with
  | nil => simp [flag]
  | cons c cs ih =>
    obtain ⟨fresh, once⟩ := List.nodup_cons.mp once
    obtain ⟨display, noted⟩ := ih once (toggle st c)
    -- the other cells are as they were
    have others (d : Nat) (inside : d ∈ cs) : (toggle st c).1.display d = st.1.display d := by
      apply Function.update_of_ne
      rintro rfl
      exact fresh inside
    rw [List.foldl_cons]
    constructor
    · intro d
      rw [display]
      by_cases here : d = c
      · subst here
        simp [toggle, fresh, flag]
      · simp [toggle, here]
    · have later : (∃ d ∈ cs, (toggle st c).1.display d ≠ 0#8) ↔
          ∃ d ∈ cs, st.1.display d ≠ 0#8 := by
        constructor <;> rintro ⟨d, inside, lit⟩ <;> exact ⟨d, inside, by simpa [others d inside] using lit⟩
      rw [noted]
      simp only [later, List.exists_mem_cons_iff]
      by_cases lit : st.1.display c = 0#8
      · simp [toggle, lit]
      · by_cases more : ∃ d ∈ cs, st.1.display d ≠ 0#8
        · simp [toggle, lit, more, BitVec.or_assoc]
        · simp [toggle, lit, more]

/-! ## Draws -/

theorem drawIo_size (screen : Screen) (x y n : Nat) (mem : List Byte) :
    (screen.drawIo x y n mem).1.width = screen.width ∧
      (screen.drawIo x y n mem).1.height = screen.height := by
  rw [drawIo_eq]
  exact toggleAll_size _ _

theorem drawIo_display (screen : Screen) (x y n : Nat) (mem : List Byte) (c : Nat) :
    (screen.drawIo x y n mem).1.display c =
      screen.display c ^^^ flag (decide (Covered screen.width screen.height x y n mem c)) := by
  rw [drawIo_eq, (toggleAll_spec (cells_nodup _ _ _ _ _ _) _).1]
  simp only [mem_cells]

theorem drawIo_collision (screen : Screen) (x y n : Nat) (mem : List Byte) :
    ((screen.drawIo x y n mem).2 = 1#8 ↔
        ∃ c, Covered screen.width screen.height x y n mem c ∧ screen.display c ≠ 0#8) ∧
      ((screen.drawIo x y n mem).2 = 0#8 ↔
        ¬ ∃ c, Covered screen.width screen.height x y n mem c ∧ screen.display c ≠ 0#8) := by
  rw [drawIo_eq, (toggleAll_spec (cells_nodup _ _ _ _ _ _) _).2]
  split
  · rename_i hit
    simp only [mem_cells] at hit
    have one : (0#8 ||| 1#8 : Byte) = 1#8 := by decide
    rw [one]
    exact ⟨iff_of_true rfl hit, iff_of_false nofun (not_not_intro hit)⟩
  · rename_i miss
    simp only [mem_cells] at miss
    exact ⟨iff_of_false nofun miss, iff_of_true rfl miss⟩

/-- The cells on the screen are 0 or 1. -/
def Binary (screen : Screen) : Prop :=
  ∀ c < screen.width * screen.height, screen.display c = 0#8 ∨ screen.display c = 1#8

theorem Covered.inside {width height x y n : Nat} {mem : List Byte} {c : Nat}
    (covered : Covered width height x y n mem c) : c < width * height := by
  obtain ⟨i, -, j, -, column, row, -, rfl⟩ := covered
  have rows : (y % height + j + 1) * width ≤ height * width := Nat.mul_le_mul_right width row
  rw [Nat.add_mul, Nat.one_mul, Nat.mul_comm height] at rows
  omega

/-- The pixels of a sprite: its origin wraps, what lies beyond an edge is clipped, each
visible set bit toggles its cell, and a lit cell among those is a collision. -/
theorem drawIo_pixels {screen : Screen} (width : screen.width = 64) (height : screen.height = 32)
    (binary : screen.Binary) (x y : Byte) (n : Reg) (mem : List Byte) :
    let drawn := screen.drawIo x.toNat y.toNat n.toNat mem
    let covered := Covered 64 32 x.toNat y.toNat n.toNat mem
    (drawn.1.width = 64 ∧ drawn.1.height = 32) ∧
      (∀ c, covered c → drawn.1.display c = if screen.display c = 1#8 then 0#8 else 1#8) ∧
      (∀ c, ¬ covered c → drawn.1.display c = screen.display c) ∧
      (drawn.2 = 1#8 ↔ ∃ c, covered c ∧ screen.display c = 1#8) ∧
      (drawn.2 = 0#8 ↔ ¬ ∃ c, covered c ∧ screen.display c = 1#8) := by
  dsimp only
  have value {c : Nat} (covered : Covered 64 32 x.toNat y.toNat n.toNat mem c) :
      screen.display c = 0#8 ∨ screen.display c = 1#8 := by
    apply binary
    rw [width, height]
    exact covered.inside
  have display := drawIo_display screen x.toNat y.toNat n.toNat mem
  have collision := drawIo_collision screen x.toNat y.toNat n.toNat mem
  rw [width, height] at display collision
  -- On the screen a cell that is not zero is one.
  have lit : (∃ c, Covered 64 32 x.toNat y.toNat n.toNat mem c ∧ screen.display c ≠ 0#8) ↔
      ∃ c, Covered 64 32 x.toNat y.toNat n.toNat mem c ∧ screen.display c = 1#8 := by
    apply exists_congr
    intro c
    refine and_congr_right fun covered => ?_
    rcases value covered with unlit | lit
    · simp [unlit]
    · simp [lit]
  rw [lit] at collision
  obtain ⟨sameWidth, sameHeight⟩ := drawIo_size screen x.toNat y.toNat n.toNat mem
  refine ⟨⟨sameWidth.trans width, sameHeight.trans height⟩, ?_, ?_, collision.1, collision.2⟩
  · intro c covered
    rw [display]
    rcases value covered with unlit | lit
    · simp [covered, unlit, flag]
    · simp [covered, lit, flag]
  · intro c uncovered
    rw [display]
    simp [uncovered, flag]

/-- A sprite of two pixels at the lower right corner, drawn from beyond it: one pixel is
clipped, the other one meets a lit cell. -/
theorem drawIo_pixels_corner :
    (((Screen.mk 64 32 fun c => if c = 2047 then 1#8 else 0#8).drawIo 127 63 1 [0xc0#8]).1.display
        2047 = 0#8) ∧
      ((Screen.mk 64 32 fun c => if c = 2047 then 1#8 else 0#8).drawIo 127 63 1 [0xc0#8]).2 =
        1#8 := by
  have binary : (Screen.mk 64 32 fun c => if c = 2047 then 1#8 else 0#8).Binary := by
    intro c _
    dsimp only
    split <;> simp
  obtain ⟨-, toggled, -, collision, -⟩ := drawIo_pixels rfl rfl binary 127#8 63#8 1#4 [0xc0#8]
  have covered : Covered 64 32 127 63 1 [0xc0#8] 2047 := by decide
  exact ⟨toggled 2047 covered, collision.mpr ⟨2047, covered, rfl⟩⟩

/-! ## Sequences of draws -/

/-- What `draw_io` is called with. -/
structure Draw where
  x : Nat
  y : Nat
  n : Nat
  mem : List Byte
  deriving DecidableEq

/-- The result of `draw_io`. -/
def draws (screen : Screen) (d : Draw) : Screen × Byte := screen.drawIo d.x d.y d.n d.mem

def perform (screen : Screen) (d : Draw) : Screen := (screen.draws d).1

/-- A visible set bit of the sprite lies on the cell. -/
def Draw.Covers (d : Draw) (screen : Screen) (c : Nat) : Prop :=
  Covered screen.width screen.height d.x d.y d.n d.mem c

instance (d : Draw) (screen : Screen) (c : Nat) : Decidable (d.Covers screen c) :=
  inferInstanceAs (Decidable (Covered ..))

/-- What a draw adds to the display. -/
def Draw.mask (d : Draw) (width height c : Nat) : Byte :=
  flag (decide (Covered width height d.x d.y d.n d.mem c))

theorem perform_eq (screen : Screen) (d : Draw) :
    screen.perform d = ⟨screen.width, screen.height,
      fun c => screen.display c ^^^ d.mask screen.width screen.height c⟩ := by
  have display : (screen.perform d).display =
      fun c => screen.display c ^^^ d.mask screen.width screen.height c := by
    funext c
    exact drawIo_display screen d.x d.y d.n d.mem c
  obtain ⟨width, height⟩ := drawIo_size screen d.x d.y d.n d.mem
  unfold perform draws at display ⊢
  rw [← display, ← width, ← height]

theorem perform_commuting : Involution.Commuting perform where
  twice screen d := by
    simp only [perform_eq, BitVec.xor_assoc, BitVec.xor_self, BitVec.xor_zero]
  comm screen d e := by
    simp only [perform_eq, BitVec.xor_assoc]
    congr 1
    funext c
    rw [BitVec.xor_comm (d.mask _ _ c)]

/-- Drawing is an involution, the collision it reports the second time is with what it lit
the first time, and of a sequence of draws only the parities count. -/
theorem perform_parity {screen : Screen} (binary : screen.Binary) (a b : Draw) :
    (screen.perform a).perform a = screen ∧
      (((screen.perform a).draws a).2 = 1#8 ↔ ∃ c, a.Covers screen c ∧ screen.display c = 0#8) ∧
      (screen.perform a).perform b = (screen.perform b).perform a ∧
      ∀ as bs : List Draw, (∀ d, as.count d % 2 = bs.count d % 2) →
        as.foldl perform screen = bs.foldl perform screen := by
  refine ⟨perform_commuting.twice screen a, ?_, perform_commuting.comm screen a b,
    fun as bs same => perform_commuting.foldl_parity same screen⟩
  -- The second draw meets the cells that the first one has lit.
  refine (drawIo_collision (screen.perform a) a.x a.y a.n a.mem).1.trans ?_
  rw [perform_eq]
  apply exists_congr
  intro c
  refine and_congr_right fun covered => ?_
  have toggled : a.mask screen.width screen.height c = 1#8 := by
    unfold Draw.mask
    rw [decide_eq_true covered]
    rfl
  dsimp only
  rw [toggled]
  rcases binary c covered.inside with unlit | lit
  · simp [unlit]
  · simp [lit]

/-- A sprite erased again, with another one drawn in between. -/
theorem perform_parity_erased :
    ([⟨60, 31, 2, [0xff#8, 0xff#8]⟩, ⟨62, 30, 3, [0x80#8, 0x40#8, 0x20#8]⟩,
        ⟨60, 31, 2, [0xff#8, 0xff#8]⟩] : List Draw).foldl perform (initIo 64 32) =
      (initIo 64 32).perform ⟨62, 30, 3, [0x80#8, 0x40#8, 0x20#8]⟩ := by
  have blank : (initIo 64 32).Binary := fun c _ => .inl rfl
  refine (perform_parity blank ⟨0, 0, 0, []⟩ ⟨0, 0, 0, []⟩).2.2.2 _
    [⟨62, 30, 3, [0x80#8, 0x40#8, 0x20#8]⟩] fun d => ?_
  simp only [List.count_cons, List.count_nil]
  omega

end ChipEight.Screen
