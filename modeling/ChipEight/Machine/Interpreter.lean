import ChipEight.Machine.Screen

/-! The interpreter of interp.c, over the host services its opcode functions call.

A platform is one build's clock, keyboard, timers and random source. The opcode
functions are the same text in every build, so they are defined once over any
platform; the benchmark build is one instance.
-/

set_option autoImplicit false

namespace ChipEight

/-- Host services with their own state `E`. -/
structure Platform (E : Type) where
  /-- `interrupt ()`. -/
  interrupt : E → E
  /-- `sync_timers ()`, the identity where `BENCH` is not defined. -/
  syncTimers : E → E
  getDelayTimer : E → Byte × E
  setDelayTimer : Byte → E → E
  setSoundTimer : Byte → E → E
  rand : E → BitVec 32 × E
  allKeysDown : E → BitVec 32 × E
  clearKey : Byte → E → E
  /-- The `do ... while` of `load_on_key`, with the mask it ends with. -/
  awaitKeys : E → BitVec 32 × E
  /-- `1 << key`. The C shift is undefined from 32 on; the platform resolves it. -/
  shiftOne : Byte → BitVec 32
  /-- The wait for the next tick at the end of `draw`, empty under `BENCH`. -/
  frameSync : E → E

/-- The machine together with the host. -/
structure State (E : Type) where
  vm : VM
  env : E

/-- `return (op << 16) | program_counter`. -/
def errorCode (op pc : Word) : BitVec 32 := op.setWidth 32 <<< 16 ||| pc.setWidth 32

/-- The quit bit of a key mask. -/
def quitBit : BitVec 32 := 0x80000000#32

namespace Interpreter

variable {E : Type}

/-- An opcode function returns its code, zero for success, and the new state. -/
abbrev Result (E : Type) := BitVec 32 × State E

/-- `ERROR`. -/
def error (op : Word) (s : State E) : Result E := (errorCode op s.vm.programCounter, s)

/-- `program_counter += 2`. -/
def advance (s : State E) : State E := { s with vm := s.vm.setPc (s.vm.programCounter + 2) }

/-- `STEP`. -/
def step (s : State E) : Result E := (0#32, advance s)

/-- Apply a function of the machine alone, then `STEP`. -/
def stepVM (f : VM → VM) (s : State E) : Result E := step { s with vm := f s.vm }

def clearscreen (s : State E) : Result E :=
  stepVM (fun vm => { vm with screen := vm.screen.clearscreenIo }) s

def jump (P : Platform E) (op : Word) (s : State E) : Result E :=
  (0#32, ⟨s.vm.setPc (target op), P.interrupt s.env⟩)

def retern (P : Platform E) (op : Word) (s : State E) : Result E :=
  let s := { s with env := P.interrupt s.env }
  if s.vm.stackPointer > 0 then
    let sp := s.vm.stackPointer - 1
    (0#32, { s with vm := { s.vm with
      stackPointer := sp
      programCounter := s.vm.stack sp.toNat } })
  else error op s

def call (P : Platform E) (op : Word) (s : State E) : Result E :=
  let s := { s with env := P.interrupt s.env }
  if s.vm.stackPointer < (stackSize : Int) then
    (0#32, { s with vm := { s.vm with
      stack := Function.update s.vm.stack s.vm.stackPointer.toNat (s.vm.programCounter + 2)
      stackPointer := s.vm.stackPointer + 1
      programCounter := target op } })
  else error op s

/-- The conditional skips: a second `program_counter += 2` before `STEP`. -/
def skipIf (c : Bool) (s : State E) : Result E := step (if c then advance s else s)

def skipEqImmediate (op : Word) (s : State E) : Result E :=
  skipIf (s.vm.regs (opX op) == immediate8 op) s

def skipNeqImmediate (op : Word) (s : State E) : Result E :=
  skipIf (s.vm.regs (opX op) != immediate8 op) s

def skipEqRegister (op : Word) (s : State E) : Result E :=
  skipIf (s.vm.regs (opX op) == s.vm.regs (opY op)) s

def skipNeqRegister (op : Word) (s : State E) : Result E :=
  skipIf (s.vm.regs (opX op) != s.vm.regs (opY op)) s

def loadImmediate (op : Word) : State E → Result E :=
  stepVM fun vm => vm.setReg (opX op) (immediate8 op)

def addImmediate (op : Word) : State E → Result E :=
  stepVM fun vm => vm.setReg (opX op) (vm.regs (opX op) + immediate8 op)

def move (op : Word) : State E → Result E :=
  stepVM fun vm => vm.setReg (opX op) (vm.regs (opY op))

def orRegister (op : Word) : State E → Result E :=
  stepVM fun vm => vm.setReg (opX op) (vm.regs (opX op) ||| vm.regs (opY op))

def andRegister (op : Word) : State E → Result E :=
  stepVM fun vm => vm.setReg (opX op) (vm.regs (opX op) &&& vm.regs (opY op))

def xorRegister (op : Word) : State E → Result E :=
  stepVM fun vm => vm.setReg (opX op) (vm.regs (opX op) ^^^ vm.regs (opY op))

def addRegister (op : Word) : State E → Result E := stepVM fun vm =>
  let tmp : Word := (vm.regs (opX op)).setWidth 16 + (vm.regs (opY op)).setWidth 16
  (vm.setReg (opX op) (tmp.setWidth 8)).setFlags (flag (tmp > 0xff#16))

def subRegister (op : Word) : State E → Result E := stepVM fun vm =>
  let vx := vm.regs (opX op)
  let vy := vm.regs (opY op)
  (vm.setReg (opX op) (vx - vy)).setFlags (flag (vx ≥ vy))

def shiftRight (op : Word) : State E → Result E := stepVM fun vm =>
  let vx := vm.regs (opX op)
  (vm.setReg (opX op) (vx >>> 1)).setFlags (vx &&& 0x01#8)

def subnRegister (op : Word) : State E → Result E := stepVM fun vm =>
  let vx := vm.regs (opX op)
  let vy := vm.regs (opY op)
  (vm.setReg (opX op) (vy - vx)).setFlags (flag (vy ≥ vx))

def shiftLeft (op : Word) : State E → Result E := stepVM fun vm =>
  let vx := vm.regs (opX op)
  (vm.setReg (opX op) (vx <<< 1)).setFlags (flag (vx &&& 0x80#8 != 0#8))

def loadAddrImmediate (op : Word) : State E → Result E :=
  stepVM fun vm => { vm with addr := target op }

def branch (op : Word) (s : State E) : Result E :=
  (0#32, { s with vm := s.vm.setPc (target op + (s.vm.regs 0#4).setWidth 16) })

def randomByte (P : Platform E) (op : Word) (s : State E) : Result E :=
  let r := P.rand s.env
  step ⟨s.vm.setReg (opX op) ((r.1 &&& 0xff#32).setWidth 8 &&& immediate8 op), r.2⟩

def getDelayTimer (P : Platform E) (op : Word) (s : State E) : Result E :=
  let r := P.getDelayTimer (P.syncTimers s.env)
  step ⟨s.vm.setReg (opX op) r.1, r.2⟩

def setDelayTimer (P : Platform E) (op : Word) (s : State E) : Result E :=
  step { s with env := P.setDelayTimer (s.vm.regs (opX op)) (P.syncTimers s.env) }

def setSoundTimer (P : Platform E) (op : Word) (s : State E) : Result E :=
  step { s with env := P.setSoundTimer (s.vm.regs (opX op)) (P.syncTimers s.env) }

def addAddr (op : Word) : State E → Result E :=
  stepVM fun vm => { vm with addr := vm.addr + (vm.regs (opX op)).setWidth 16 }

/-- The three stores of `store_bcd`. -/
def bcdStores (x : Reg) (vm : VM) : VM :=
  let tmp := vm.regs x
  let hundreds := tmp / 100#8
  let tmp := tmp % 100#8
  let tens := tmp / 10#8
  let tmp := tmp % 10#8
  ((vm.storeAt 0 hundreds).storeAt 1 tens).storeAt 2 tmp

def storeBcd (op : Word) : State E → Result E := stepVM (bcdStores (opX op))

def skipKeyX (P : Platform E) (op : Word) (up : Bool) (s : State E) : Result E :=
  let key := s.vm.regs (opX op)
  let r := P.allKeysDown s.env
  if (r.1 &&& P.shiftOne key != 0#32) ^^ up then
    step (advance { s with env := P.clearKey key r.2 })
  else step { s with env := r.2 }

/-- The scan of `load_on_key` at one key: note it if it is pressed, and clear it. -/
def scanKey (P : Platform E) (x : Reg) (allKeys : BitVec 32) (s : State E) (i : Nat) : State E :=
  ⟨if allKeys &&& 1#32 <<< i != 0#32 then s.vm.setReg x (BitVec.ofNat 8 i) else s.vm,
    P.clearKey (BitVec.ofNat 8 i) s.env⟩

def scanKeys (P : Platform E) (x : Reg) (allKeys : BitVec 32) (s : State E) : State E :=
  (List.range 16).foldl (scanKey P x allKeys) s

def loadOnKey (P : Platform E) (op : Word) (s : State E) : Result E :=
  let r := P.awaitKeys s.env
  let s := scanKeys P (opX op) r.1 { s with env := r.2 }
  if r.1 &&& quitBit != 0#32 then error op s else step s

/-- `draw` from the sprite fetch to the collision flag. -/
def drawSprite (op : Word) (vm : VM) : VM :=
  let n := (immediate4 op).toNat
  let sprite := (List.range n).map vm.memAt
  let r := vm.screen.drawIo (vm.regs (opX op)).toNat (vm.regs (opY op)).toNat n sprite
  { vm with screen := r.1 }.setFlags r.2

def draw (P : Platform E) (op : Word) (s : State E) : Result E :=
  step ⟨drawSprite op s.vm, P.frameSync (P.interrupt s.env)⟩

/-- The loop of `save_registers`. -/
def saveLoop (x : Reg) (vm : VM) : VM :=
  (List.range (x.toNat + 1)).foldl (fun vm i => vm.storeAt i (vm.regs (BitVec.ofNat 4 i))) vm

def saveRegisters (op : Word) : State E → Result E := stepVM (saveLoop (opX op))

/-- The loop of `restore_registers`. -/
def restoreLoop (x : Reg) (vm : VM) : VM :=
  (List.range (x.toNat + 1)).foldl (fun vm i => vm.setReg (BitVec.ofNat 4 i) (vm.memAt i)) vm

def restoreRegisters (op : Word) : State E → Result E := stepVM (restoreLoop (opX op))

def loadSpriteAddr (op : Word) : State E → Result E := stepVM fun vm =>
  { vm with addr := (vm.regs (opX op) &&& 0x0f#8).setWidth 16 * 5 }

/-- `basic_block`: fetch, decode and execute one instruction. -/
def basicBlock (P : Platform E) (s : State E) : Result E :=
  let op := opcodeAt s.vm.memory s.vm.programCounter
  if op == 0x00e0#16 then clearscreen s
  else if op == 0x00ee#16 then retern P op s
  else match opClass op with
    | 0x0 => jump P op s
    | 0x1 => jump P op s
    | 0x2 => call P op s
    | 0x3 => skipEqImmediate op s
    | 0x4 => skipNeqImmediate op s
    | 0x5 => skipEqRegister op s
    | 0x6 => loadImmediate op s
    | 0x7 => addImmediate op s
    | 0x8 => match opLow4 op with
      | 0x0 => move op s
      | 0x1 => orRegister op s
      | 0x2 => andRegister op s
      | 0x3 => xorRegister op s
      | 0x4 => addRegister op s
      | 0x5 => subRegister op s
      | 0x6 => shiftRight op s
      | 0x7 => subnRegister op s
      | 0xe => shiftLeft op s
      | _ => error op s
    | 0x9 => skipNeqRegister op s
    | 0xa => loadAddrImmediate op s
    | 0xb => branch op s
    | 0xc => randomByte P op s
    | 0xd => draw P op s
    | 0xe => match opLow8 op with
      | 0x9e => skipKeyX P op false s
      | 0xa1 => skipKeyX P op true s
      | _ => error op s
    | 0xf => match opLow8 op with
      | 0x07 => getDelayTimer P op s
      | 0x0a => loadOnKey P op s
      | 0x15 => setDelayTimer P op s
      | 0x18 => setSoundTimer P op s
      | 0x1e => addAddr op s
      | 0x29 => loadSpriteAddr op s
      | 0x33 => storeBcd op s
      | 0x55 => saveRegisters op s
      | 0x65 => restoreRegisters op s
      | _ => error op s
    | _ => error op s

end Interpreter

end ChipEight
