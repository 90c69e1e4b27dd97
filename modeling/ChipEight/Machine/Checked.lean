import ChipEight.Library.Guarded
import ChipEight.Machine.Subscripts

/-! The interpreter with a test in front of every subscript.

`Checked` holds interp.c, idle.h and `draw_io` once more. An index is computed as the C
expression has it and compared with the length of the array; an access outside ends the step.
No test fails in a sound state, and what the tests let through is the interpreter.
-/

set_option autoImplicit false

namespace ChipEight.Checked

open Interpreter (Result error advance step skipIf)

/-! ## Accesses -/

def subscript {A : Type} (vector : Vector) (index : Int) (a : A) : Except Subscript A :=
  if 0 ≤ index ∧ index < vector.length then .ok a else .error ⟨vector, index⟩

def getReg (vm : VM) (i : Nat) : Except Subscript Byte :=
  subscript .regs i (vm.regs (BitVec.ofNat 4 i))

def setReg (i : Nat) (v : Byte) (vm : VM) : Except Subscript VM :=
  subscript .regs i (vm.setReg (BitVec.ofNat 4 i) v)

/-- `memory[(a) & (MEMORY_SIZE - 1)]`. -/
def memAt (vm : VM) (a : Nat) : Except Subscript Byte :=
  let i := a &&& (memorySize - 1)
  subscript .memory i (vm.memory (BitVec.ofNat 12 i))

/-- `MEM_AT (addr + i) = v`. -/
def storeAt (i : Nat) (v : Byte) (vm : VM) : Except Subscript VM :=
  let j := vm.addr.toNat + i &&& (memorySize - 1)
  subscript .memory j { vm with memory := Function.update vm.memory (BitVec.ofNat 12 j) v }

/-- `OPCODE_AT`. -/
def opcodeAt (vm : VM) (pc : Nat) : Except Subscript Word := do
  let high ← memAt vm pc
  let low ← memAt vm (pc + 1)
  .ok (high.setWidth 16 <<< 8 ||| low.setWidth 16)

/-- `(op >> 8) & 0xf`. -/
def xOf (op : Word) : Nat := op.toNat >>> 8 &&& 0xf

/-- `(op >> 4) & 0xf`. -/
def yOf (op : Word) : Nat := op.toNat >>> 4 &&& 0xf

/-- The services that subscript `keys_down`. -/
structure Services (E : Type) where
  interrupt : E → Except Subscript E
  allKeysDown : E → Except Subscript (BitVec 32 × E)
  clearKey : Byte → E → Except Subscript E

/-! ## The opcode functions -/

section
variable {E : Type} (G : Services E) (P : Platform E)

def stepVM (f : VM → Except Subscript VM) (s : State E) : Except Subscript (Result E) := do
  let vm ← f s.vm
  .ok (step { s with vm := vm })

/-- The `memset` of `clearscreen_io`. -/
def clearscreen (s : State E) : Except Subscript (Result E) := do
  let display ← (List.range Screen.displaySize).foldlM
    (fun display (i : Nat) => subscript .display i (Function.update display i 0#8))
    s.vm.screen.display
  .ok (step { s with vm := { s.vm with screen := { s.vm.screen with display := display } } })

def jump (op : Word) (s : State E) : Except Subscript (Result E) := do
  let env ← G.interrupt s.env
  .ok (0#32, ⟨s.vm.setPc (target op), env⟩)

def retern (op : Word) (s : State E) : Except Subscript (Result E) := do
  let env ← G.interrupt s.env
  if s.vm.stackPointer > 0 then
    let sp := s.vm.stackPointer - 1
    let pc ← subscript .stack sp (s.vm.stack sp.toNat)
    .ok (0#32, ⟨{ s.vm with stackPointer := sp, programCounter := pc }, env⟩)
  else .ok (error op { s with env := env })

def call (op : Word) (s : State E) : Except Subscript (Result E) := do
  let env ← G.interrupt s.env
  if s.vm.stackPointer < (stackSize : Int) then
    let sp := s.vm.stackPointer
    let stack ← subscript .stack sp
      (Function.update s.vm.stack sp.toNat (s.vm.programCounter + 2))
    .ok (0#32, ⟨{ s.vm with
      stack := stack
      stackPointer := sp + 1
      programCounter := target op }, env⟩)
  else .ok (error op { s with env := env })

def skipImmediate (holds : Byte → Byte → Bool) (op : Word) (s : State E) :
    Except Subscript (Result E) := do
  let vx ← getReg s.vm (xOf op)
  .ok (skipIf (holds vx (immediate8 op)) s)

def skipRegister (holds : Byte → Byte → Bool) (op : Word) (s : State E) :
    Except Subscript (Result E) := do
  let vx ← getReg s.vm (xOf op)
  let vy ← getReg s.vm (yOf op)
  .ok (skipIf (holds vx vy) s)

def skipEqImmediate : Word → State E → Except Subscript (Result E) := skipImmediate (· == ·)
def skipNeqImmediate : Word → State E → Except Subscript (Result E) := skipImmediate (· != ·)
def skipEqRegister : Word → State E → Except Subscript (Result E) := skipRegister (· == ·)
def skipNeqRegister : Word → State E → Except Subscript (Result E) := skipRegister (· != ·)

def loadImmediate (op : Word) : State E → Except Subscript (Result E) :=
  stepVM (setReg (xOf op) (immediate8 op))

def addImmediate (op : Word) : State E → Except Subscript (Result E) := stepVM fun vm => do
  let vx ← getReg vm (xOf op)
  setReg (xOf op) (vx + immediate8 op) vm

def move (op : Word) : State E → Except Subscript (Result E) := stepVM fun vm => do
  let vy ← getReg vm (yOf op)
  setReg (xOf op) vy vm

/-- `regs[x] op= regs[y]`. -/
def assign (f : Byte → Byte → Byte) (op : Word) : State E → Except Subscript (Result E) :=
  stepVM fun vm => do
    let vx ← getReg vm (xOf op)
    let vy ← getReg vm (yOf op)
    setReg (xOf op) (f vx vy) vm

def orRegister : Word → State E → Except Subscript (Result E) := assign (· ||| ·)
def andRegister : Word → State E → Except Subscript (Result E) := assign (· &&& ·)
def xorRegister : Word → State E → Except Subscript (Result E) := assign (· ^^^ ·)

def addRegister (op : Word) : State E → Except Subscript (Result E) := stepVM fun vm => do
  let vx ← getReg vm (xOf op)
  let vy ← getReg vm (yOf op)
  let tmp : Word := vx.setWidth 16 + vy.setWidth 16
  let vm ← setReg (xOf op) (tmp.setWidth 8) vm
  setReg 15 (flag (tmp > 0xff#16)) vm

def subRegister (op : Word) : State E → Except Subscript (Result E) := stepVM fun vm => do
  let vx ← getReg vm (xOf op)
  let vy ← getReg vm (yOf op)
  let vm ← setReg (xOf op) (vx - vy) vm
  setReg 15 (flag (vx ≥ vy)) vm

def shiftRight (op : Word) : State E → Except Subscript (Result E) := stepVM fun vm => do
  let vx ← getReg vm (xOf op)
  let vm ← setReg (xOf op) (vx >>> 1) vm
  setReg 15 (vx &&& 0x01#8) vm

def subnRegister (op : Word) : State E → Except Subscript (Result E) := stepVM fun vm => do
  let vx ← getReg vm (xOf op)
  let vy ← getReg vm (yOf op)
  let vm ← setReg (xOf op) (vy - vx) vm
  setReg 15 (flag (vy ≥ vx)) vm

def shiftLeft (op : Word) : State E → Except Subscript (Result E) := stepVM fun vm => do
  let vx ← getReg vm (xOf op)
  let vm ← setReg (xOf op) (vx <<< 1) vm
  setReg 15 (flag (vx &&& 0x80#8 != 0#8)) vm

def loadAddrImmediate (op : Word) : State E → Except Subscript (Result E) :=
  stepVM fun vm => .ok { vm with addr := target op }

def branch (op : Word) (s : State E) : Except Subscript (Result E) := do
  let v0 ← getReg s.vm 0
  .ok (0#32, { s with vm := s.vm.setPc (target op + v0.setWidth 16) })

def randomByte (op : Word) (s : State E) : Except Subscript (Result E) := do
  let r := P.rand s.env
  let vm ← setReg (xOf op) ((r.1 &&& 0xff#32).setWidth 8 &&& immediate8 op) s.vm
  .ok (step ⟨vm, r.2⟩)

def getDelayTimer (op : Word) (s : State E) : Except Subscript (Result E) := do
  let r := P.getDelayTimer (P.syncTimers s.env)
  let vm ← setReg (xOf op) r.1 s.vm
  .ok (step ⟨vm, r.2⟩)

/-- `set_delay_timer` and `set_sound_timer`. -/
def setTimer (set : Byte → E → E) (op : Word) (s : State E) : Except Subscript (Result E) := do
  let env := P.syncTimers s.env
  let vx ← getReg s.vm (xOf op)
  .ok (step { s with env := set vx env })

def addAddr (op : Word) : State E → Except Subscript (Result E) := stepVM fun vm => do
  let vx ← getReg vm (xOf op)
  .ok { vm with addr := vm.addr + vx.setWidth 16 }

def storeBcd (op : Word) : State E → Except Subscript (Result E) := stepVM fun vm => do
  let tmp ← getReg vm (xOf op)
  let hundreds := tmp / 100#8
  let tmp := tmp % 100#8
  let tens := tmp / 10#8
  let tmp := tmp % 10#8
  let vm ← storeAt 0 hundreds vm
  let vm ← storeAt 1 tens vm
  storeAt 2 tmp vm

def skipKeyX (op : Word) (up : Bool) (s : State E) : Except Subscript (Result E) := do
  let r ← G.allKeysDown s.env
  let key ← getReg s.vm (xOf op)
  if (r.1 &&& P.shiftOne key != 0#32) ^^ up then
    let key ← getReg s.vm (xOf op)
    let env ← G.clearKey key r.2
    .ok (step (advance { s with env := env }))
  else .ok (step { s with env := r.2 })

def scanKey (x : Nat) (allKeys : BitVec 32) (s : State E) (i : Nat) :
    Except Subscript (State E) := do
  let env ← G.clearKey (BitVec.ofNat 8 i) s.env
  if allKeys &&& 1#32 <<< i != 0#32 then
    let vm ← setReg x (BitVec.ofNat 8 i) s.vm
    .ok ⟨vm, env⟩
  else .ok { s with env := env }

def loadOnKey (op : Word) (s : State E) : Except Subscript (Result E) := do
  let r := P.awaitKeys s.env
  let s ← (List.range 16).foldlM (scanKey G (xOf op) r.1) { s with env := r.2 }
  .ok (if r.1 &&& quitBit != 0#32 then error op s else step s)

def drawPixel (x y : Nat) (byte : Byte) (j : Nat) (st : Screen × Byte) (i : Nat) :
    Except Subscript (Screen × Byte) := do
  let screen := st.1
  let x2 := i + x
  let y2 := j + y
  if x2 ≥ screen.width then .ok st
  else
    let bit := flag (byte &&& 0x80#8 >>> i != 0#8)
    let index := x2 + y2 * screen.width
    let oldPixel ← subscript .display index (screen.display index)
    let newPixel := oldPixel ^^^ bit
    let display ← subscript .display index (Function.update screen.display index newPixel)
    .ok ({ screen with display := display },
      if oldPixel != 0#8 && bit != 0#8 then st.2 ||| 1#8 else st.2)

def drawRow (x y : Nat) (mem : List Byte) (st : Screen × Byte) (j : Nat) :
    Except Subscript (Screen × Byte) := do
  if j + y ≥ st.1.height then .ok st
  else
    let byte ← subscript .sprite j (mem.getD j 0#8)
    (List.range 8).foldlM (drawPixel x y byte j) st

def drawIo (screen : Screen) (x y n : Nat) (mem : List Byte) : Except Subscript (Screen × Byte) :=
  (List.range n).foldlM (drawRow (x % screen.width) (y % screen.height) mem) (screen, 0#8)

/-- `sprite[i] = MEM_AT (addr + i)`. -/
def fetchRow (vm : VM) (i : Nat) : Except Subscript Byte := do
  let byte ← memAt vm (vm.addr.toNat + i)
  subscript .sprite i byte

def draw (op : Word) (s : State E) : Except Subscript (Result E) := do
  let n := (immediate4 op).toNat
  let env ← G.interrupt s.env
  let sprite ← (List.range n).mapM (fetchRow s.vm)
  let vx ← getReg s.vm (xOf op)
  let vy ← getReg s.vm (yOf op)
  let r ← drawIo s.vm.screen vx.toNat vy.toNat n sprite
  let vm ← setReg 15 r.2 { s.vm with screen := r.1 }
  .ok (step ⟨vm, P.frameSync env⟩)

def saveByte (vm : VM) (i : Nat) : Except Subscript VM := do
  let v ← getReg vm i
  storeAt i v vm

def saveRegisters (op : Word) : State E → Except Subscript (Result E) :=
  stepVM fun vm => (List.range (xOf op + 1)).foldlM saveByte vm

def restoreByte (vm : VM) (i : Nat) : Except Subscript VM := do
  let v ← memAt vm (vm.addr.toNat + i)
  setReg i v vm

def restoreRegisters (op : Word) : State E → Except Subscript (Result E) :=
  stepVM fun vm => (List.range (xOf op + 1)).foldlM restoreByte vm

def loadSpriteAddr (op : Word) : State E → Except Subscript (Result E) := stepVM fun vm => do
  let vx ← getReg vm (xOf op)
  .ok { vm with addr := (vx &&& 0x0f#8).setWidth 16 * 5 }

def basicBlock (s : State E) : Except Subscript (Result E) := do
  let op ← opcodeAt s.vm s.vm.programCounter.toNat
  if op == 0x00e0#16 then clearscreen s
  else if op == 0x00ee#16 then retern G op s
  else match opClass op with
    | 0x0 => jump G op s
    | 0x1 => jump G op s
    | 0x2 => call G op s
    | 0x3 => skipEqImmediate op s
    | 0x4 => skipNeqImmediate op s
    | 0x5 => skipEqRegister op s
    | 0x6 => loadImmediate op s
    | 0x7 => addImmediate op s
    | 0x8 => match opLow4 op with
      | 0x0 => move op s
      | 0x1 => orRegister op s
      | 0x2 => andRegister op s
      | 0x3 => xorRegister op s
      | 0x4 => addRegister op s
      | 0x5 => subRegister op s
      | 0x6 => shiftRight op s
      | 0x7 => subnRegister op s
      | 0xe => shiftLeft op s
      | _ => .ok (error op s)
    | 0x9 => skipNeqRegister op s
    | 0xa => loadAddrImmediate op s
    | 0xb => branch op s
    | 0xc => randomByte P op s
    | 0xd => draw G P op s
    | 0xe => match opLow8 op with
      | 0x9e => skipKeyX G P op false s
      | 0xa1 => skipKeyX G P op true s
      | _ => .ok (error op s)
    | 0xf => match opLow8 op with
      | 0x07 => getDelayTimer P op s
      | 0x0a => loadOnKey G P op s
      | 0x15 => setTimer P P.setDelayTimer op s
      | 0x18 => setTimer P P.setSoundTimer op s
      | 0x1e => addAddr op s
      | 0x29 => loadSpriteAddr op s
      | 0x33 => storeBcd op s
      | 0x55 => saveRegisters op s
      | 0x65 => restoreRegisters op s
      | _ => .ok (error op s)
    | _ => .ok (error op s)

end

/-! ## Accesses that go through -/

theorem subscript_ok {A : Type} {vector : Vector} {i : Int} (a : A) (low : 0 ≤ i)
    (high : i < vector.length) : subscript vector i a = .ok a :=
  if_pos ⟨low, high⟩

theorem subscript_nat {A : Type} {vector : Vector} {i : Nat} (a : A) (inside : i < vector.length) :
    subscript vector i a = .ok a :=
  if_pos ⟨Int.natCast_nonneg i, Int.ofNat_lt.mpr inside⟩

theorem getReg_ok (vm : VM) {i : Nat} (inside : i < 16) :
    getReg vm i = .ok (vm.regs (BitVec.ofNat 4 i)) :=
  subscript_nat _ inside

example (vm : VM) : getReg vm 16 = .error ⟨.regs, 16⟩ := rfl

theorem setReg_ok (v : Byte) (vm : VM) {i : Nat} (inside : i < 16) :
    setReg i v vm = .ok (vm.setReg (BitVec.ofNat 4 i) v) :=
  subscript_nat _ inside

theorem xOf_lt (op : Word) : xOf op < 16 := Nat.and_lt_two_pow _ (by decide : 0xf < 2 ^ 4)

theorem yOf_lt (op : Word) : yOf op < 16 := Nat.and_lt_two_pow _ (by decide : 0xf < 2 ^ 4)

theorem ofNat_nibble (n : Nat) : BitVec.ofNat 4 (n &&& 0xf) = BitVec.ofNat 4 n := by
  apply BitVec.eq_of_toNat_eq
  rw [BitVec.toNat_ofNat, BitVec.toNat_ofNat, Nat.and_two_pow_sub_one_eq_mod n 4, Nat.mod_mod]

theorem ofNat_xOf (op : Word) : BitVec.ofNat 4 (xOf op) = opX op := by
  rw [xOf, ofNat_nibble]
  rfl

theorem ofNat_yOf (op : Word) : BitVec.ofNat 4 (yOf op) = opY op := by
  rw [yOf, ofNat_nibble]
  rfl

@[simp] theorem getReg_x (vm : VM) (op : Word) : getReg vm (xOf op) = .ok (vm.regs (opX op)) := by
  rw [getReg_ok vm (xOf_lt op), ofNat_xOf]

@[simp] theorem getReg_y (vm : VM) (op : Word) : getReg vm (yOf op) = .ok (vm.regs (opY op)) := by
  rw [getReg_ok vm (yOf_lt op), ofNat_yOf]

@[simp] theorem setReg_x (vm : VM) (op : Word) (v : Byte) :
    setReg (xOf op) v vm = .ok (vm.setReg (opX op) v) := by
  rw [setReg_ok v vm (xOf_lt op), ofNat_xOf]

@[simp] theorem setReg_flags (vm : VM) (v : Byte) : setReg 15 v vm = .ok (vm.setFlags v) :=
  setReg_ok v vm (by decide)

theorem masked (n : Nat) :
    n &&& (memorySize - 1) < memorySize ∧
      BitVec.ofNat 12 (n &&& (memorySize - 1)) = mask (BitVec.ofNat 16 n) := by
  have low : n &&& (memorySize - 1) = n % 2 ^ 12 := Nat.and_two_pow_sub_one_eq_mod n 12
  rw [low]
  refine ⟨Nat.mod_lt n (by decide), BitVec.eq_of_toNat_eq ?_⟩
  rw [mask, BitVec.toNat_ofNat, BitVec.toNat_setWidth, BitVec.toNat_ofNat]
  omega

@[simp] theorem memAt_ok (vm : VM) (n : Nat) :
    memAt vm n = .ok (vm.memory (mask (BitVec.ofNat 16 n))) := by
  obtain ⟨inside, same⟩ := masked n
  rw [← same]
  exact subscript_nat _ inside

theorem ofNat_addr (a : Word) (i : Nat) :
    BitVec.ofNat 16 (a.toNat + i) = a + BitVec.ofNat 16 i := by
  rw [BitVec.ofNat_add, BitVec.ofNat_toNat, BitVec.setWidth_eq]

@[simp] theorem memAt_addr (vm : VM) (i : Nat) :
    memAt vm (vm.addr.toNat + i) = .ok (vm.memAt i) := by
  rw [memAt_ok, ofNat_addr]
  rfl

@[simp] theorem storeAt_ok (vm : VM) (i : Nat) (v : Byte) :
    storeAt i v vm = .ok (vm.storeAt i v) := by
  obtain ⟨inside, same⟩ := masked (vm.addr.toNat + i)
  rw [storeAt, VM.storeAt, ← ofNat_addr, ← same]
  exact subscript_nat _ inside

theorem opcodeAt_ok (vm : VM) (pc : Word) (i : Nat) :
    opcodeAt vm (pc.toNat + i) = .ok (ChipEight.opcodeAt vm.memory (pc + BitVec.ofNat 16 i)) := by
  have next : BitVec.ofNat 16 (pc.toNat + i + 1) = pc + BitVec.ofNat 16 i + 1 := by
    rw [Nat.add_assoc, ofNat_addr, BitVec.ofNat_add, ← BitVec.add_assoc]
    rfl
  simp only [opcodeAt, memAt_ok, Guarded.ok_bind, next, ofNat_addr]
  rfl

theorem foldl_update {A : Type} (g : A → A) (f : Nat → A) (n : Nat) :
    (List.range n).foldl (fun f i => Function.update f i (g (f i))) f =
      fun i => if i < n then g (f i) else f i := by
  induction n with
  | zero =>
    funext i
    rw [if_neg (Nat.not_lt_zero i)]
    rfl
  | succ n ih =>
    rw [List.range_succ, List.foldl_append, ih]
    funext i
    simp only [List.foldl_cons, List.foldl_nil, Function.update_apply]
    rcases Nat.lt_trichotomy i n with below | rfl | above
    · rw [if_neg (Nat.ne_of_lt below), if_pos below, if_pos (Nat.lt_succ_of_lt below)]
    · rw [if_pos rfl, if_neg (Nat.lt_irrefl i), if_pos (Nat.lt_succ_self i)]
    · rw [if_neg (Nat.ne_of_gt above), if_neg (Nat.lt_asymm above), if_neg (by omega)]

/-! ## Opcode functions that go through -/

section
variable {E : Type} {G : Services E} {P : Platform E} {ring : E → Prop}

/-- The services are those of the platform where the ring index is in the ring. -/
structure Services.Serve (G : Services E) (P : Platform E) (ring : E → Prop) : Prop where
  interrupt : ∀ e, ring e → G.interrupt e = .ok (P.interrupt e)
  allKeysDown : ∀ e, G.allKeysDown e = .ok (P.allKeysDown e)
  clearKey : ∀ key e, G.clearKey key e = .ok (P.clearKey key e)

theorem clearscreen_ok (s : State E) : clearscreen s = .ok (Interpreter.clearscreen s) := by
  have written : ∀ display : Nat → Byte, ∀ i ∈ List.range Screen.displaySize,
      subscript .display (i : Nat) (Function.update display i 0#8) =
        .ok (Function.update display i 0#8) :=
    fun display i inside => subscript_nat _ (List.mem_range.mp inside)
  rw [clearscreen, Guarded.foldlM_ok written, Guarded.ok_bind]
  rw [foldl_update fun _ => 0#8]
  rfl

theorem drawPixel_ok {x y j i : Nat} {byte : Byte} {st : Screen × Byte} (clean : st.1.Clean)
    (row : j + y < st.1.height) :
    drawPixel x y byte j st i = .ok (Screen.drawPixel x y byte j st i) := by
  unfold drawPixel Screen.drawPixel
  dsimp only
  split
  · rfl
  · rename_i column
    have inside := cellIndex_lt clean (Nat.not_le.mp column) row
    have fits : st.1.width * st.1.height ≤ Screen.displaySize := by
      rw [clean.width, clean.height]
      decide
    have access {A : Type} (a : A) :
        subscript .display ((i + x + (j + y) * st.1.width : Nat) : Int) a = .ok a :=
      subscript_nat a (Nat.lt_of_lt_of_le inside fits)
    rw [access, Guarded.ok_bind, access, Guarded.ok_bind]

theorem drawRow_ok {x y j : Nat} {mem : List Byte} {st : Screen × Byte} (clean : st.1.Clean)
    (small : j < 16) : drawRow x y mem st j = .ok (Screen.drawRow x y mem st j) := by
  unfold drawRow Screen.drawRow
  split
  · rfl
  · rename_i row
    rw [subscript_nat _ (show j < Vector.sprite.length from small), Guarded.ok_bind]
    exact Guarded.foldlM_invariant (fun st => st.1.Clean ∧ j + y < st.1.height)
      (fun _ _ _ inv => ⟨drawPixel_clean inv.1 inv.2, by
        rw [drawPixel_height]
        exact inv.2⟩)
      (fun _ _ _ inv => drawPixel_ok inv.1 inv.2) ⟨clean, Nat.not_le.mp row⟩

theorem drawIo_ok {screen : Screen} (clean : screen.Clean) (x y : Nat) {n : Nat} (small : n ≤ 16)
    (mem : List Byte) : drawIo screen x y n mem = .ok (screen.drawIo x y n mem) :=
  Guarded.foldlM_invariant (fun st => st.1.Clean) (fun _ _ _ clean => drawRow_clean clean)
    (fun _ _ inside clean => drawRow_ok clean (Nat.lt_of_lt_of_le (List.mem_range.mp inside) small))
    clean

theorem draw_ok (serve : G.Serve P ring) (op : Word) {s : State E} (sound : s.vm.Sound)
    (inRing : ring s.env) : draw G P op s = .ok (Interpreter.draw P op s) := by
  have small : (immediate4 op).toNat ≤ 16 := Nat.le_of_lt (immediate4 op).isLt
  have rows : (List.range (immediate4 op).toNat).mapM (fetchRow s.vm) =
      .ok ((List.range (immediate4 op).toNat).map s.vm.memAt) :=
    Guarded.mapM_ok fun i mem => by
      rw [fetchRow, memAt_addr, Guarded.ok_bind]
      exact subscript_nat _ (Nat.lt_of_lt_of_le (List.mem_range.mp mem) small)
  simp only [draw, serve.interrupt s.env inRing, rows, getReg_x, getReg_y,
    drawIo_ok sound.screen _ _ small, setReg_flags, Guarded.ok_bind]
  rfl

theorem stepVM_ok {f : VM → Except Subscript VM} {g : VM → VM} {s : State E}
    (body : f s.vm = .ok (g s.vm)) : stepVM f s = .ok (Interpreter.stepVM g s) := by
  rw [stepVM, body, Guarded.ok_bind]
  rfl

theorem skipImmediate_ok (holds : Byte → Byte → Bool) (op : Word) (s : State E) :
    skipImmediate holds op s = .ok (skipIf (holds (s.vm.regs (opX op)) (immediate8 op)) s) := by
  rw [skipImmediate, getReg_x, Guarded.ok_bind]

theorem skipRegister_ok (holds : Byte → Byte → Bool) (op : Word) (s : State E) :
    skipRegister holds op s =
      .ok (skipIf (holds (s.vm.regs (opX op)) (s.vm.regs (opY op))) s) := by
  rw [skipRegister, getReg_x, Guarded.ok_bind, getReg_y, Guarded.ok_bind]

theorem assign_ok (f : Byte → Byte → Byte) (op : Word) (s : State E) :
    assign f op s = .ok (Interpreter.stepVM
      (fun vm => vm.setReg (opX op) (f (vm.regs (opX op)) (vm.regs (opY op)))) s) :=
  stepVM_ok (by simp)

theorem saveRegisters_ok (op : Word) (s : State E) :
    saveRegisters op s = .ok (Interpreter.saveRegisters op s) := by
  refine stepVM_ok ?_
  rw [Interpreter.saveLoop, ← ofNat_xOf, BitVec.toNat_ofNat, Nat.mod_eq_of_lt (xOf_lt op)]
  refine Guarded.foldlM_ok (fun vm i mem => ?_) s.vm
  have inside : i < 16 := by
    have := List.mem_range.mp mem
    have := xOf_lt op
    omega
  rw [saveByte, getReg_ok vm inside, Guarded.ok_bind, storeAt_ok]

theorem restoreRegisters_ok (op : Word) (s : State E) :
    restoreRegisters op s = .ok (Interpreter.restoreRegisters op s) := by
  refine stepVM_ok ?_
  rw [Interpreter.restoreLoop, ← ofNat_xOf, BitVec.toNat_ofNat, Nat.mod_eq_of_lt (xOf_lt op)]
  refine Guarded.foldlM_ok (fun vm i mem => ?_) s.vm
  have inside : i < 16 := by
    have := List.mem_range.mp mem
    have := xOf_lt op
    omega
  rw [restoreByte, memAt_addr, Guarded.ok_bind, setReg_ok _ vm inside]

theorem storeBcd_ok (op : Word) (s : State E) :
    storeBcd op s = .ok (Interpreter.storeBcd op s) := by
  refine stepVM_ok ?_
  simp only [getReg_x, storeAt_ok, Guarded.ok_bind]
  rfl

theorem skipKeyX_ok (serve : G.Serve P ring) (op : Word) (up : Bool) (s : State E) :
    skipKeyX G P op up s = .ok (Interpreter.skipKeyX P op up s) := by
  simp only [skipKeyX, Interpreter.skipKeyX, serve.allKeysDown, getReg_x, serve.clearKey,
    Guarded.ok_bind]
  split <;> rfl

theorem loadOnKey_ok (serve : G.Serve P ring) (op : Word) (s : State E) :
    loadOnKey G P op s = .ok (Interpreter.loadOnKey P op s) := by
  have scanned : ∀ (keys : BitVec 32) (s : State E), ∀ i ∈ List.range 16,
      scanKey G (xOf op) keys s i = .ok (Interpreter.scanKey P (opX op) keys s i) := by
    intro keys s i _
    simp only [scanKey, Interpreter.scanKey, serve.clearKey, setReg_x, Guarded.ok_bind]
    split <;> rfl
  rw [loadOnKey, Guarded.foldlM_ok (scanned _), Guarded.ok_bind]
  rfl

theorem retern_ok (serve : G.Serve P ring) (op : Word) {s : State E} (sound : s.vm.Sound)
    (inRing : ring s.env) : retern G op s = .ok (Interpreter.retern P op s) := by
  unfold retern Interpreter.retern
  rw [serve.interrupt s.env inRing, Guarded.ok_bind]
  dsimp only
  split
  · rename_i filled
    have top : s.vm.stackPointer ≤ Vector.stack.length := sound.top
    rw [subscript_ok _ (by omega) (by omega)]
    rfl
  · rfl

theorem call_ok (serve : G.Serve P ring) (op : Word) {s : State E} (sound : s.vm.Sound)
    (inRing : ring s.env) : call G op s = .ok (Interpreter.call P op s) := by
  unfold call Interpreter.call
  rw [serve.interrupt s.env inRing, Guarded.ok_bind]
  dsimp only
  split
  · rename_i room
    rw [subscript_ok _ sound.bottom (show s.vm.stackPointer < Vector.stack.length from room)]
    rfl
  · rfl

theorem basicBlock_ok (serve : G.Serve P ring) {s : State E} (sound : s.vm.Sound)
    (inRing : ring s.env) : basicBlock G P s = .ok (Interpreter.basicBlock P s) := by
  have fetched := opcodeAt_ok s.vm s.vm.programCounter 0
  rw [Nat.add_zero, BitVec.add_zero] at fetched
  rw [basicBlock, fetched, Guarded.ok_bind]
  unfold Interpreter.basicBlock
  generalize ChipEight.opcodeAt s.vm.memory s.vm.programCounter = op
  dsimp only
  split
  · exact clearscreen_ok s
  split
  · exact retern_ok serve op sound inRing
  -- From here on one case for each branch of the switch, with the rule of its handler.
  generalize opClass op = c, opLow4 op = low4, opLow8 op = low8
  have jumped : jump G op s = .ok (Interpreter.jump P op s) := by
    rw [jump, serve.interrupt s.env inRing, Guarded.ok_bind]
    rfl
  split
  · exact jumped
  · exact jumped
  · exact call_ok serve op sound inRing
  · exact skipImmediate_ok _ op s
  · exact skipImmediate_ok _ op s
  · exact skipRegister_ok _ op s
  · exact stepVM_ok (setReg_x ..)
  · exact stepVM_ok (by simp)
  · split
    · exact stepVM_ok (by simp)
    · exact assign_ok _ op s
    · exact assign_ok _ op s
    · exact assign_ok _ op s
    · exact stepVM_ok (by simp)
    · exact stepVM_ok (by simp)
    · exact stepVM_ok (by simp)
    · exact stepVM_ok (by simp)
    · exact stepVM_ok (by simp)
    · simp
  · exact skipRegister_ok _ op s
  · exact stepVM_ok rfl
  · rw [branch, getReg_ok s.vm (by decide), Guarded.ok_bind]
    rfl
  · simp only [randomByte, setReg_x, Guarded.ok_bind]
    rfl
  · exact draw_ok serve op sound inRing
  · split
    · exact skipKeyX_ok serve op false s
    · exact skipKeyX_ok serve op true s
    · simp
  · split
    · simp only [getDelayTimer, setReg_x, Guarded.ok_bind]
      rfl
    · exact loadOnKey_ok serve op s
    · simp only [setTimer, getReg_x, Guarded.ok_bind]
      rfl
    · simp only [setTimer, getReg_x, Guarded.ok_bind]
      rfl
    · exact stepVM_ok (by simp)
    · exact stepVM_ok (by simp)
    · exact storeBcd_ok op s
    · exact saveRegisters_ok op s
    · exact restoreRegisters_ok op s
    · simp
  · simp

end

/-! ## The interactive build -/

section
variable (o : Outside) (undefinedShift : Byte → BitVec 32)

def interrupt (e : Live) : Except Subscript Live := do
  let e := e.countTimers (o.ticks e.serviced)
  let keysDown ← subscript .keysDown e.interruptCount
    (Function.update e.keysDown e.interruptCount (o.keys e.serviced))
  .ok { e with
    keysDown := keysDown
    interruptCount := (e.interruptCount + 1) % inputTicks
    serviced := e.serviced + 1 }

def allKeysDown (e : Live) : Except Subscript (BitVec 32) :=
  (List.range inputTicks).foldlM (fun all (i : Nat) => do
    let keys ← subscript .keysDown i (e.keysDown i)
    .ok (all ||| keys)) 0#32

def clearKey (key : Byte) (e : Live) : Except Subscript Live := do
  let keysDown ← (List.range inputTicks).foldlM (fun keysDown (i : Nat) => do
    let keys ← subscript .keysDown i (keysDown i)
    subscript .keysDown i (Function.update keysDown i (keys &&& ~~~(shiftKey undefinedShift key))))
    e.keysDown
  .ok { e with keysDown := keysDown }

def liveServices : Services Live where
  interrupt := interrupt o
  allKeysDown e := do
    let keys ← allKeysDown e
    .ok (keys, e)
  clearKey := clearKey undefinedShift

/-- `chip8_idle_delay_loop`, with what it stores in `*reg`. -/
def idleDelayLoop (vm : VM) (pc : Word) : Except Subscript (Option Nat) := do
  let a ← opcodeAt vm (pc.toNat + 0)
  let b ← opcodeAt vm (pc.toNat + 2)
  let c ← opcodeAt vm (pc.toNat + 4)
  let x := xOf a
  .ok (if a &&& 0xf0ff#16 ≠ 0xf007#16 then none
    else if b &&& 0xf0ff#16 ≠ 0x3000#16 ∨ xOf b ≠ x then none
    else if c &&& 0xf000#16 ≠ 0x1000#16 ∨ c &&& 0x0fff#16 ≠ pc then none
    else some x)

/-- Where `main` is, with the variable `reg`. -/
inductive Phase where
  | loop
  | idleWait (reg : Nat)
  | finished

structure Main where
  phase : Phase
  state : State Live

def mainPass (elideIdle : Bool) (s : State Live) : Except Subscript Main := do
  let keys ← allKeysDown s.env
  if keys &&& quitBit != 0#32 then .ok ⟨.finished, s⟩
  else
    let found ← if elideIdle then idleDelayLoop s.vm s.vm.programCounter else .ok none
    match if s.env.delayTimer != 0#8 then found else none with
    | some reg => .ok ⟨.idleWait reg, s⟩
    | none =>
      let r ← basicBlock (liveServices o undefinedShift) (livePlatform o undefinedShift) s
      .ok (if r.1 == 0#32 then ⟨.loop, r.2⟩ else ⟨.finished, r.2⟩)

/-- `regs[reg] = 0; program_counter += 6`. -/
def leaveIdle (reg : Nat) (s : State Live) : Except Subscript Main := do
  let vm ← setReg reg 0#8 s.vm
  .ok ⟨.loop, { s with vm := vm.setPc (vm.programCounter + 6) }⟩

def idlePass (reg : Nat) (s : State Live) : Except Subscript Main := do
  if s.env.delayTimer == 0#8 then leaveIdle reg s
  else
    let keys ← allKeysDown s.env
    if keys &&& quitBit != 0#32 then leaveIdle reg s
    else
      let env ← interrupt o s.env
      .ok ⟨.idleWait reg, { s with env := env }⟩

def liveStep (elideIdle : Bool) (m : Main) : Except Subscript (Option Main) :=
  match m.phase with
  | .loop => do
    let m ← mainPass o undefinedShift elideIdle m.state
    .ok (some m)
  | .idleWait reg => do
    let m ← idlePass o reg m.state
    .ok (some m)
  | .finished => .ok none

/-- The number in `reg`. -/
def Phase.of : ChipEight.Phase → Phase
  | .loop => .loop
  | .idleWait reg => .idleWait reg.toNat
  | .finished => .finished

def Main.of (m : ChipEight.Main) : Main := ⟨.of m.phase, m.state⟩

theorem interrupt_ok {e : Live} (ring : e.interruptCount < inputTicks) :
    interrupt o e = .ok (e.interrupt o) := by
  have kept (tick : Int) : (e.countTimers tick).interruptCount = e.interruptCount ∧
      (e.countTimers tick).serviced = e.serviced := by
    unfold Live.countTimers
    split <;> exact ⟨rfl, rfl⟩
  obtain ⟨count, serviced⟩ := kept (o.ticks e.serviced)
  unfold interrupt Live.interrupt Live.recordKeys
  dsimp only
  rw [subscript_nat _ (show _ < Vector.keysDown.length by rw [count]; exact ring), Guarded.ok_bind,
    serviced]

theorem allKeysDown_ok (e : Live) : allKeysDown e = .ok e.allKeysDown := by
  refine Guarded.foldlM_ok (fun all i mem => ?_) 0#32
  rw [subscript_nat _ (show i < Vector.keysDown.length from List.mem_range.mp mem)]
  rfl

theorem clearKey_ok (key : Byte) (e : Live) :
    clearKey undefinedShift key e = .ok (e.clearKey undefinedShift key) := by
  have written : ∀ keysDown : Nat → BitVec 32, ∀ i ∈ List.range inputTicks,
      (do let keys ← subscript .keysDown (i : Nat) (keysDown i)
          subscript .keysDown (i : Nat) (Function.update keysDown i
            (keys &&& ~~~(shiftKey undefinedShift key)))) =
        Except.ok (Function.update keysDown i (keysDown i &&& ~~~(shiftKey undefinedShift key))) := by
    intro keysDown i mem
    have inside : i < Vector.keysDown.length := List.mem_range.mp mem
    rw [subscript_nat _ inside, Guarded.ok_bind, subscript_nat _ inside]
  rw [clearKey, Guarded.foldlM_ok written, Guarded.ok_bind,
    foldl_update fun keys => keys &&& ~~~(shiftKey undefinedShift key)]
  rfl

theorem liveServices_serve : (liveServices o undefinedShift).Serve (livePlatform o undefinedShift)
    fun e => e.interruptCount < inputTicks where
  interrupt e ring := interrupt_ok o ring
  allKeysDown e := by
    show (allKeysDown e >>= _) = _
    rw [allKeysDown_ok]
    rfl
  clearKey key e := clearKey_ok undefinedShift key e

theorem xOf_eq (op : Word) : xOf op = (opX op).toNat := by
  rw [← ofNat_xOf, BitVec.toNat_ofNat, Nat.mod_eq_of_lt (xOf_lt op)]

theorem idleDelayLoop_ok (vm : VM) (pc : Word) :
    idleDelayLoop vm pc = .ok ((ChipEight.idleDelayLoop vm.memory pc).map BitVec.toNat) := by
  have first := opcodeAt_ok vm pc 0
  have second : _ = Except.ok (ChipEight.opcodeAt vm.memory (pc + 2)) := opcodeAt_ok vm pc 2
  have third : _ = Except.ok (ChipEight.opcodeAt vm.memory (pc + 4)) := opcodeAt_ok vm pc 4
  rw [BitVec.add_zero] at first
  unfold idleDelayLoop ChipEight.idleDelayLoop
  rw [first, second, third]
  generalize ChipEight.opcodeAt vm.memory pc = a, ChipEight.opcodeAt vm.memory (pc + 2) = b,
    ChipEight.opcodeAt vm.memory (pc + 4) = c
  simp only [Guarded.ok_bind, xOf_eq, Ne, BitVec.toNat_inj]
  split_ifs <;> rfl

theorem leaveIdle_ok (reg : Reg) (s : State Live) :
    leaveIdle reg.toNat s = .ok ⟨.loop, { s with vm := ChipEight.leaveIdle reg s.vm }⟩ := by
  rw [leaveIdle, setReg_ok 0#8 s.vm reg.isLt, BitVec.ofNat_toNat, BitVec.setWidth_eq]
  rfl

theorem idlePass_ok (reg : Reg) {s : State Live} (ring : s.env.interruptCount < inputTicks) :
    idlePass o reg.toNat s = .ok (.of (ChipEight.idlePass o reg s)) := by
  rw [idlePass, leaveIdle_ok, allKeysDown_ok, interrupt_ok o ring]
  unfold ChipEight.idlePass idleLoop Live.quitting
  simp only [Guarded.ok_bind]
  cases s.env.delayTimer == 0#8 <;> cases s.env.allKeysDown &&& quitBit != 0#32 <;> rfl

theorem mainPass_ok (elideIdle : Bool) {s : State Live} (sound : s.vm.Sound)
    (ring : s.env.interruptCount < inputTicks) :
    mainPass o undefinedShift elideIdle s =
      .ok (.of (ChipEight.mainPass o undefinedShift elideIdle s)) := by
  have ran := basicBlock_ok (liveServices_serve o undefinedShift) sound ring
  have executed (r : Result Live) :
      Main.of (if r.1 == 0#32 then ⟨.loop, r.2⟩ else ⟨.finished, r.2⟩) =
        if r.1 == 0#32 then ⟨.loop, r.2⟩ else ⟨.finished, r.2⟩ := by
    split <;> rfl
  rw [mainPass, allKeysDown_ok, idleDelayLoop_ok, ran]
  unfold ChipEight.mainPass Live.quitting elided
  simp only [Guarded.ok_bind]
  cases s.env.allKeysDown &&& quitBit != 0#32
  · cases elideIdle <;> cases s.env.delayTimer != 0#8 <;>
      cases ChipEight.idleDelayLoop s.vm.memory s.vm.programCounter <;>
      first | rfl | exact congrArg Except.ok (executed _).symm
  · rfl

theorem liveStep_ok (elideIdle : Bool) {m : ChipEight.Main} (sound : m.Sound) :
    liveStep o undefinedShift elideIdle (.of m) =
      .ok ((ChipEight.liveStep o undefinedShift elideIdle m).map .of) := by
  obtain ⟨phase, s⟩ := m
  cases phase with
  | loop =>
    show (mainPass o undefinedShift elideIdle s >>= _) = _
    rw [mainPass_ok o undefinedShift elideIdle sound.vm sound.ring]
    rfl
  | idleWait reg =>
    show (idlePass o reg.toNat s >>= _) = _
    rw [idlePass_ok o reg sound.ring]
    rfl
  | finished => rfl

end

/-! ## The benchmark build -/

section
variable (rng : Nat → BitVec 32) (undefinedShift : Byte → BitVec 32)

/-- The keys of bench_io.c are in no array. -/
def benchServices : Services Bench where
  interrupt e := .ok e.syncTimers
  allKeysDown e := .ok e.keysNow
  clearKey key e := .ok (e.clearKey undefinedShift key)

def benchStep (s : State Bench) : Except Subscript (Option (State Bench)) := do
  let keys := s.env.keysNow
  if keys.1 &&& quitBit != 0#32 then .ok none
  else
    let r ← basicBlock (benchServices undefinedShift) (benchPlatform rng undefinedShift)
      { s with env := keys.2.retire 1 }
    .ok (if r.1 = 0#32 then some r.2 else none)

theorem benchStep_ok {s : State Bench} (sound : s.vm.Sound) :
    benchStep rng undefinedShift s = .ok (ChipEight.benchStep rng undefinedShift s) := by
  have serve : (benchServices undefinedShift).Serve (benchPlatform rng undefinedShift)
      fun _ => True :=
    ⟨fun _ _ => rfl, fun _ => rfl, fun _ _ => rfl⟩
  have ran := basicBlock_ok (s := ⟨s.vm, s.env.keysNow.2.retire 1⟩) serve sound trivial
  rw [benchStep, ran]
  unfold ChipEight.benchStep
  dsimp only
  split <;> rfl

end

/-! ## Runs -/

/-- The interpreter, in either build, is in a sound state after any number of steps, and no test
of the next step fails. -/
theorem interpreter_sound (rom : List Byte) (undefinedShift : Byte → BitVec 32) :
    (∀ (o : Outside) (elideIdle : Bool) (tick : Int) (n : Nat) (m : ChipEight.Main),
      Run.after (ChipEight.liveStep o undefinedShift elideIdle) n (.boot rom tick) = some m →
        m.state.vm.Sound ∧
          liveStep o undefinedShift elideIdle (.of m) =
            .ok ((ChipEight.liveStep o undefinedShift elideIdle m).map .of)) ∧
    ∀ (rng : Nat → BitVec 32) (env : Bench) (n : Nat) (s : State Bench),
      benchRun rng undefinedShift n ⟨VM.boot rom, env⟩ = some s →
        s.vm.Sound ∧
          benchStep rng undefinedShift s = .ok (ChipEight.benchStep rng undefinedShift s) ∧
          (Interpreter.basicBlock (benchPlatform rng undefinedShift) (benchEnter s)).2.vm.Sound := by
  constructor
  · intro o elideIdle tick n m run
    have sound : m.Sound := Run.invariant
      (fun _ _ sound stepped => liveStep_sound o undefinedShift elideIdle sound stepped)
      (boot_main rom tick) run
    exact ⟨sound.vm, liveStep_ok o undefinedShift elideIdle sound⟩
  · intro rng env n s run
    have sound : s.vm.Sound := Run.invariant
      (fun _ _ sound stepped => benchStep_sound rng undefinedShift sound stepped)
      (boot_sound rom) run
    exact ⟨sound, benchStep_ok rng undefinedShift sound,
      basicBlock_sound (benchPlatform rng undefinedShift) (by exact sound)⟩

/-- A subroutine that draws and returns. -/
theorem interpreter_sound_subroutine :
    ∃ m, Run.after (ChipEight.liveStep quietOutside (fun _ => 0#32) true) 3
        (.boot [0x22#8, 0x02#8, 0xD0#8, 0x05#8, 0x00#8, 0xEE#8] 0) = some m ∧
      m.state.vm.Sound ∧ liveStep quietOutside (fun _ => 0#32) true (.of m) =
        .ok ((ChipEight.liveStep quietOutside (fun _ => 0#32) true m).map .of) :=
  ⟨_, rfl, (interpreter_sound [0x22#8, 0x02#8, 0xD0#8, 0x05#8, 0x00#8, 0xEE#8]
    (fun _ => 0#32)).1 quietOutside true 0 3 _ rfl⟩

end ChipEight.Checked
