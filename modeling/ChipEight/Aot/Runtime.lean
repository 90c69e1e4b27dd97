import ChipEight.Machine.Tape

/-! The host services of aot_runtime.c that generated code calls.

They are written over the clock, keyboard, timers and random source of the host, as
the interpreter is, but they are a second implementation: nothing here refers to the
interpreter's opcode functions.
-/

set_option autoImplicit false

namespace ChipEight.Aot

/-- What aot_runtime.c asks of the host. -/
structure Host (E : Type) where
  pollKeysIfDue : E → E
  serviceTimers : E → E
  /-- `keys ()`. -/
  keys : E → BitVec 32 × E
  clearKey : Byte → E → E
  delayTimer : E → Byte × E
  setDelayTimer : Byte → E → E
  setSoundTimer : Byte → E → E
  rand : E → BitVec 32 × E
  /-- `1u << key`, undefined in C from 32 on. -/
  shiftOne : Byte → BitVec 32
  /-- The `while` of `Fx0A`, which ends once `keys () & 0xffff` is not zero. -/
  awaitKeys : E → E
  /-- The wait for the next tick in `chip8_aot_draw`. -/
  frameSync : E → E

structure Machine (E : Type) where
  vm : VM
  /-- `static uint32_t retired`. -/
  retired : BitVec 32
  env : E

def Machine.mapVM {E : Type} (m : Machine E) (f : VM → VM) : Machine E := { m with vm := f m.vm }

section
variable {E : Type} (H : Host E)

/-- The result is the test of the quit key. -/
def chip8AotRetire (m : Machine E) : Bool × Machine E :=
  let retired := m.retired + 1
  let env := H.pollKeysIfDue m.env
  let env := if retired &&& 31#32 == 0#32 then H.serviceTimers env else env
  let r := H.keys env
  (r.1 &&& quitBit != 0#32, ⟨m.vm, retired, r.2⟩)

def chip8AotClear (m : Machine E) : Machine E :=
  m.mapVM fun vm => { vm with screen := vm.screen.clearscreenIo }

def chip8AotReturn (m : Machine E) : Machine E :=
  if m.vm.stackPointer != 0 then
    m.mapVM fun vm => { vm with
      stackPointer := vm.stackPointer - 1
      programCounter := vm.stack (vm.stackPointer - 1).toNat }
  else m.mapVM (VM.setPc · 0xffff#16)

def chip8AotCall (dst ret : Word) (m : Machine E) : Machine E :=
  if m.vm.stackPointer < (stackSize : Int) then
    m.mapVM fun vm => { vm with
      stack := Function.update vm.stack vm.stackPointer.toNat ret
      stackPointer := vm.stackPointer + 1
      programCounter := dst }
  else m.mapVM (VM.setPc · 0xffff#16)

/-- The `switch` of `chip8_aot_alu`. -/
def aluCase (x y : Reg) (n : Nat) (vm : VM) : VM :=
  let a := vm.regs x
  let b := vm.regs y
  match n with
  | 0 => vm.setReg x b
  | 1 => vm.setReg x (vm.regs x ||| b)
  | 2 => vm.setReg x (vm.regs x &&& b)
  | 3 => vm.setReg x (vm.regs x ^^^ b)
  | 4 =>
    let s : Word := a.setWidth 16 + b.setWidth 16
    (vm.setReg x (s.setWidth 8)).setFlags (flag (s > 255#16))
  | 5 => (vm.setReg x (a - b)).setFlags (flag (a ≥ b))
  | 6 => (vm.setReg x (a >>> 1)).setFlags (a &&& 1#8)
  | 7 => (vm.setReg x (b - a)).setFlags (flag (b ≥ a))
  | 14 => (vm.setReg x (a <<< 1)).setFlags ((a >>> 7) &&& 1#8)
  | _ => vm.setPc 0xffff#16

def chip8AotAlu (x y : Reg) (n : Nat) (m : Machine E) : Machine E := m.mapVM (aluCase x y n)

def chip8AotRandom (x : Reg) (k : Byte) (m : Machine E) : Machine E :=
  let r := H.rand m.env
  { m with vm := m.vm.setReg x ((r.1 &&& 255#32).setWidth 8 &&& k), env := r.2 }

def chip8AotDraw (x y n : Reg) (m : Machine E) : Machine E :=
  let env := H.serviceTimers (H.pollKeysIfDue m.env)
  let sprite := (List.range n.toNat).map m.vm.memAt
  let r := m.vm.screen.drawIo (m.vm.regs x).toNat (m.vm.regs y).toNat n.toNat sprite
  { m with vm := { m.vm with screen := r.1 }.setFlags r.2, env := H.frameSync env }

def chip8AotKey (x : Reg) (up : Bool) (m : Machine E) : Machine E :=
  let r := H.keys (H.pollKeysIfDue m.env)
  let down := r.1 &&& H.shiftOne (m.vm.regs x) != 0#32
  let m : Machine E := { m with env := r.2 }
  let m : Machine E :=
    if down ^^ up then
      { m with
        vm := m.vm.setPc (m.vm.programCounter + 2)
        env := H.clearKey (m.vm.regs x) m.env }
    else m
  m.mapVM fun vm => vm.setPc (vm.programCounter + 2)

/-- The scan of `Fx0A`: the first key that is down is stored and cleared. -/
def scanDown (x : Reg) : List Nat → Machine E → Machine E
  | [], m => m
  | i :: is, m =>
    let r := H.keys m.env
    if r.1 &&& 1#32 <<< i != 0#32 then
      { m with
        vm := m.vm.setReg x (BitVec.ofNat 8 i)
        env := H.clearKey (BitVec.ofNat 8 i) r.2 }
    else scanDown x is { m with env := r.2 }

/-- Case 51 of `chip8_aot_f`. -/
def bcdCase (x : Reg) (vm : VM) : VM :=
  let v := vm.regs x
  ((vm.storeAt 0 (v / 100#8)).storeAt 1 (v / 10#8 % 10#8)).storeAt 2 (v % 10#8)

/-- Case 85 of `chip8_aot_f`. -/
def storeCase (x : Reg) (vm : VM) : VM :=
  (List.range (x.toNat + 1)).foldl (fun vm i => vm.storeAt i (vm.regs (BitVec.ofNat 4 i))) vm

/-- Case 101 of `chip8_aot_f`. -/
def loadCase (x : Reg) (vm : VM) : VM :=
  (List.range (x.toNat + 1)).foldl (fun vm i => vm.setReg (BitVec.ofNat 4 i) (vm.memAt i)) vm

def chip8AotF (x : Reg) (k : Nat) (m : Machine E) : Machine E :=
  match k with
  | 7 =>
    let r := H.delayTimer m.env
    { m with vm := m.vm.setReg x r.1, env := r.2 }
  | 10 => scanDown H x (List.range 16) { m with env := H.awaitKeys m.env }
  | 21 => { m with env := H.setDelayTimer (m.vm.regs x) m.env }
  | 24 => { m with env := H.setSoundTimer (m.vm.regs x) m.env }
  | 30 => m.mapVM fun vm => { vm with addr := vm.addr + (vm.regs x).setWidth 16 }
  | 41 => m.mapVM fun vm => { vm with addr := (vm.regs x &&& 0x0f#8).setWidth 16 * 5 }
  | 51 => m.mapVM (bcdCase x)
  | 85 => m.mapVM (storeCase x)
  | 101 => m.mapVM (loadCase x)
  | _ => m.mapVM (VM.setPc · 0xffff#16)

end

/-- `main` up to the call of `chip8_aot_run`. -/
def Machine.boot {E : Type} (rom : List Byte) (env : E) : Machine E := ⟨VM.boot rom, 0#32, env⟩

/-- The runtime on a tape: it reads what `tapePlatform` would. -/
def tapeHost (tape : Tape) (undefinedShift : Byte → BitVec 32) : Host Cursor where
  pollKeysIfDue := id
  serviceTimers := id
  keys := tape.readKeys
  clearKey := fun _ => id
  delayTimer := tape.readDelayTimer
  setDelayTimer := fun _ => id
  setSoundTimer := fun _ => id
  rand := tape.readRand
  shiftOne := shiftKey undefinedShift
  awaitKeys := id
  frameSync := id

end ChipEight.Aot
