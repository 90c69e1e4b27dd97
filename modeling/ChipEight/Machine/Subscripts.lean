import ChipEight.Machine.Effects
import ChipEight.Machine.Bench
import ChipEight.Machine.Interactive

/-! The arrays of the interpreter, and what its subscripts rest on.

A state is sound when the stack pointer is between the ends of the stack and the
display holds zeros and ones on the screen and zeros behind it. Every instruction
keeps a state sound.
-/

set_option autoImplicit false

namespace ChipEight

/-- The arrays, and the buffer `sprite` of `draw`. -/
inductive Vector where
  | stack
  | memory
  | regs
  | sprite
  | display
  | keysDown
  deriving DecidableEq, Repr

def Vector.length : Vector → Nat
  | .stack => stackSize
  | .memory => memorySize
  | .regs => 16
  | .sprite => 16
  | .display => Screen.displaySize
  | .keysDown => inputTicks

/-- An access, by the index the C expression computes. -/
structure Subscript where
  vector : Vector
  index : Int
  deriving DecidableEq, Repr

/-! ## Sound states -/

/-- A framebuffer of zeros and ones, with zeros behind the screen. -/
structure Screen.Clean (screen : Screen) : Prop where
  width : screen.width = 64
  height : screen.height = 32
  cells : ∀ i, screen.display i = 0#8 ∨ screen.display i = 1#8
  beyond : ∀ i, screen.width * screen.height ≤ i → screen.display i = 0#8

structure VM.Sound (vm : VM) : Prop where
  bottom : 0 ≤ vm.stackPointer
  top : vm.stackPointer ≤ stackSize
  screen : vm.screen.Clean

theorem boot_sound (rom : List Byte) : (VM.boot rom).Sound where
  bottom := Int.le_refl 0
  top := Int.natCast_nonneg stackSize
  screen := ⟨rfl, rfl, fun _ => .inl rfl, fun _ _ => rfl⟩

theorem VM.Sound.congr {vm vm' : VM} (sound : vm.Sound)
    (stackPointer : vm'.stackPointer = vm.stackPointer) (screen : vm'.screen = vm.screen) :
    vm'.Sound := by
  constructor
  · rw [stackPointer]
    exact sound.bottom
  · rw [stackPointer]
    exact sound.top
  · rw [screen]
    exact sound.screen

/-! ## Drawing -/

theorem flag_cases (b : Bool) : flag b = 0#8 ∨ flag b = 1#8 := by
  cases b
  · exact .inl rfl
  · exact .inr rfl

theorem cell_xor {a b : Byte} (first : a = 0#8 ∨ a = 1#8) (second : b = 0#8 ∨ b = 1#8) :
    a ^^^ b = 0#8 ∨ a ^^^ b = 1#8 := by
  obtain rfl | rfl := first <;> obtain rfl | rfl := second <;> decide

theorem cellIndex_lt {screen : Screen} (clean : screen.Clean) {x y : Nat}
    (column : x < screen.width) (row : y < screen.height) :
    x + y * screen.width < screen.width * screen.height := by
  rw [clean.width] at column ⊢
  rw [clean.height] at row ⊢
  omega

theorem drawPixel_clean {x y j i : Nat} {byte : Byte} {st : Screen × Byte} (clean : st.1.Clean)
    (row : j + y < st.1.height) : (Screen.drawPixel x y byte j st i).1.Clean := by
  unfold Screen.drawPixel
  dsimp only
  split
  · exact clean
  · rename_i column
    have inside := cellIndex_lt clean (Nat.not_le.mp column) row
    constructor
    · exact clean.width
    · exact clean.height
    · intro k
      dsimp only
      by_cases here : k = i + x + (j + y) * st.1.width
      · rw [here, Function.update_self]
        exact cell_xor (clean.cells _) (flag_cases _)
      · rw [Function.update_of_ne here]
        exact clean.cells k
    · intro k outside
      dsimp only at outside ⊢
      have other : k ≠ i + x + (j + y) * st.1.width := by omega
      rw [Function.update_of_ne other]
      exact clean.beyond k outside

theorem drawPixel_height {x y j i : Nat} {byte : Byte} {st : Screen × Byte} :
    (Screen.drawPixel x y byte j st i).1.height = st.1.height := by
  unfold Screen.drawPixel
  dsimp only
  split <;> rfl

theorem drawRow_clean {x y j : Nat} {mem : List Byte} {st : Screen × Byte} (clean : st.1.Clean) :
    (Screen.drawRow x y mem st j).1.Clean := by
  unfold Screen.drawRow
  split
  · exact clean
  · rename_i row
    replace row := Nat.not_le.mp row
    generalize List.range 8 = is
    induction is generalizing st with
    | nil => exact clean
    | cons i is ih =>
      apply ih
      · exact drawPixel_clean clean row
      · rw [drawPixel_height]
        exact row

theorem drawIo_clean {screen : Screen} (clean : screen.Clean) (x y n : Nat) (mem : List Byte) :
    (screen.drawIo x y n mem).1.Clean := by
  unfold Screen.drawIo
  generalize (0#8 : Byte) = collision
  generalize x % screen.width = x
  generalize y % screen.height = y
  generalize List.range n = js
  induction js generalizing screen collision with
  | nil => exact clean
  | cons j js ih => exact ih (drawRow_clean clean) _

theorem clearscreenIo_clean {screen : Screen} (clean : screen.Clean) :
    screen.clearscreenIo.Clean := by
  constructor
  · exact clean.width
  · exact clean.height
  · intro i
    unfold Screen.clearscreenIo
    dsimp only
    split
    · exact .inl rfl
    · exact clean.cells i
  · intro i outside
    unfold Screen.clearscreenIo at outside ⊢
    dsimp only at outside ⊢
    split
    · rfl
    · exact clean.beyond i outside

/-! ## Instructions -/

section
variable {E : Type} (P : Platform E)

theorem exec_screen (op : Word) {i : Insn} (notCls : i ≠ .cls) (notDrw : ∀ x y n, i ≠ .drw x y n)
    (s : State E) : (i.exec P op s).2.vm.screen = s.vm.screen := by
  cases i with
  | cls => exact absurd rfl notCls
  | drw x y n => exact absurd rfl (notDrw x y n)
  | save x => exact saveLoop_other VM.screen (fun _ _ _ => rfl) x s.vm
  | restore x => exact restoreLoop_other VM.screen (fun _ _ _ => rfl) x s.vm
  | ldKey x =>
    have scanned := scanKeys_other P VM.screen (fun _ _ _ => rfl) x (P.awaitKeys s.env).1
      { s with env := (P.awaitKeys s.env).2 }
    simp only [Insn.exec]
    split <;> exact scanned
  | ret =>
    simp only [Insn.exec, Interpreter.retern]
    split <;> rfl
  | call nnn =>
    simp only [Insn.exec]
    split <;> rfl
  | skip c =>
    simp only [Insn.exec, Interpreter.skipIf]
    split <;> rfl
  | skipKey x up =>
    simp only [Insn.exec]
    split <;> rfl
  | alu o x y => cases o <;> rfl
  | _ => rfl

theorem exec_sound (op : Word) (i : Insn) {s : State E} (sound : s.vm.Sound) :
    (i.exec P op s).2.vm.Sound := by
  by_cases isRet : i = .ret
  · subst isRet
    simp only [Insn.exec, Interpreter.retern]
    have := sound.top
    split
    · constructor
      · dsimp only
        omega
      · dsimp only
        omega
      · exact sound.screen
    · exact sound
  by_cases isCall : ∃ nnn, i = .call nnn
  · obtain ⟨nnn, rfl⟩ := isCall
    simp only [Insn.exec]
    have := sound.bottom
    split
    · constructor
      · dsimp only
        omega
      · dsimp only
        omega
      · exact sound.screen
    · exact sound
  -- The other instructions leave the stack alone.
  have stackPointer := (exec_stack P op isRet (fun nnn same => isCall ⟨nnn, same⟩) s).2
  by_cases isCls : i = .cls
  · subst isCls
    exact ⟨sound.bottom, sound.top, clearscreenIo_clean sound.screen⟩
  by_cases isDrw : ∃ x y n, i = .drw x y n
  · obtain ⟨x, y, n, rfl⟩ := isDrw
    exact ⟨sound.bottom, sound.top, drawIo_clean sound.screen _ _ _ _⟩
  exact sound.congr stackPointer
    (exec_screen P op isCls (fun x y n same => isDrw ⟨x, y, n, same⟩) s)

theorem basicBlock_sound {s : State E} (sound : s.vm.Sound) :
    (Interpreter.basicBlock P s).2.vm.Sound := by
  rw [basicBlock_eq]
  cases decode (opcodeAt s.vm.memory s.vm.programCounter) with
  | none => exact sound
  | some i => exact exec_sound P _ i sound

end

/-! ## Runs -/

theorem interrupt_ring (o : Outside) (e : Live) :
    (e.interrupt o).interruptCount < inputTicks :=
  Nat.mod_lt _ (by decide)

section
variable (o : Outside) (undefinedShift : Byte → BitVec 32)

theorem livePlatform_ring : (livePlatform o undefinedShift).Keeps fun e e' =>
    e.interruptCount < inputTicks → e'.interruptCount < inputTicks where
  refl _ := id
  trans first second := fun start => second (first start)
  interrupt e := fun _ => interrupt_ring o e
  syncTimers _ := id
  getDelayTimer _ := id
  setDelayTimer _ _ := id
  setSoundTimer _ _ := id
  rand _ := id
  allKeysDown _ := id
  clearKey _ _ := id
  awaitKeys _ := id
  frameSync _ := id

/-- What holds in every state of `main`. -/
structure Main.Sound (m : Main) : Prop where
  vm : m.state.vm.Sound
  ring : m.state.env.interruptCount < inputTicks

theorem basicBlock_ring {s : State Live} (ring : s.env.interruptCount < inputTicks) :
    (Interpreter.basicBlock (livePlatform o undefinedShift) s).2.env.interruptCount <
      inputTicks := by
  rw [basicBlock_eq]
  cases decode (opcodeAt s.vm.memory s.vm.programCounter) with
  | none => exact ring
  | some i => exact exec_keeps (livePlatform_ring o undefinedShift) _ i s ring

theorem idleLoop_ring {e e' : Live} (looped : idleLoop o e = some e') :
    e'.interruptCount < inputTicks := by
  unfold idleLoop at looped
  split at looped
  · cases looped
  · cases looped
    exact interrupt_ring o e

theorem liveStep_sound (elideIdle : Bool) {m m' : Main} (sound : m.Sound)
    (stepped : liveStep o undefinedShift elideIdle m = some m') : m'.Sound := by
  unfold liveStep at stepped
  split at stepped
  · cases stepped
    have vm := basicBlock_sound (livePlatform o undefinedShift) sound.vm
    have ring := basicBlock_ring o undefinedShift sound.ring
    unfold mainPass
    split
    · exact ⟨sound.vm, sound.ring⟩
    · split
      · exact ⟨sound.vm, sound.ring⟩
      · dsimp only
        split <;> exact ⟨vm, ring⟩
  · cases stepped
    unfold idlePass
    split
    · rename_i env looped
      exact ⟨sound.vm, idleLoop_ring o looped⟩
    · exact ⟨sound.vm.congr rfl rfl, sound.ring⟩
  · cases stepped

end

theorem benchStep_sound (rng : Nat → BitVec 32) (undefinedShift : Byte → BitVec 32)
    {s t : State Bench} (sound : s.vm.Sound)
    (stepped : benchStep rng undefinedShift s = some t) : t.vm.Sound := by
  have vm := basicBlock_sound (benchPlatform rng undefinedShift)
    (show (benchEnter s).vm.Sound from sound)
  rw [(benchStep_eq_some rng undefinedShift).mp stepped] at vm
  exact vm

theorem boot_main (rom : List Byte) (tick : Int) : (Main.boot rom tick).Sound :=
  ⟨boot_sound rom, Nat.zero_lt_succ 9⟩

end ChipEight
