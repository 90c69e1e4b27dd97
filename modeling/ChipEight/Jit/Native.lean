import ChipEight.Machine.Idle
import ChipEight.Machine.Instruction

/-! The native code the JITs emit, and the host helpers it calls
(libgccjit_jit.c, llvm_jit.cpp).

The library calls of the two code generators become an operation each: a load, a
store, a call of a helper, a safepoint. A safepoint is the diamond both
generators emit, its test and slow path included. Blocks are named by the
CHIP-8 address they were emitted for, since a trace holds one block an address.
-/

set_option autoImplicit false

namespace ChipEight.Jit

/-- The host services of a JIT build. -/
structure Host (E : Type) extends Platform E where
  /-- `check_interrupt ()`, which may raise `program_over`. -/
  checkInterrupt : E → E
  programOver : E → Bool
  /-- The emitted addition to `bench_retired`. -/
  retire : Nat → E → E
  /-- The safepoint diamond. -/
  safepoint : E → E
  /-- The waiting loop of `jit_idle_wait`. -/
  idleWait : E → E

/-- The variables native code works on. -/
structure Machine (E : Type) where
  vm : VM
  env : E
  codeBytes : Addr → Bool
  smcPending : Bool

/-! ## Emitted operations -/

inductive BinOp where
  | add | sub | and | or | xor | mul | shl | shr

inductive Comparison where
  | eq | ne | ugt | uge | sgt

/-- Emitted values, by width. A `slot` is a libgccjit local or an LLVM value
loaded earlier in the same instruction. -/
inductive Value : Nat → Type where
  | const {w : Nat} (v : BitVec w) : Value w
  | reg (x : Reg) : Value 8
  | slot (i : Nat) : Value 8
  | addr : Value 16
  | zext (e : Value 8) : Value 16
  | trunc (e : Value 16) : Value 8
  | bin {w : Nat} (o : BinOp) (a b : Value w) : Value w
  | cmp {w : Nat} (c : Comparison) (a b : Value w) : Value 8

/-- Functions native code calls by name. -/
inductive Helper where
  | clearscreenIo | retern | call | randomByte | draw | skipKeyXDown | skipKeyXUp
  | loadOnKey | storeBcd | saveRegisters | restoreRegisters | syncTimers | idleWait
  deriving DecidableEq

inductive Op where
  | load (i : Nat) (x : Reg)
  | setReg (x : Reg) (e : Value 8)
  | setAddr (e : Value 16)
  | setPc (e : Value 16)
  | getDelay (x : Reg)
  | setDelay (e : Value 8)
  | setSound (e : Value 8)
  | call (h : Helper)
  | retire (n : Nat)
  | safepoint

/-- A block, or what remains of one. -/
inductive Code where
  | op (o : Op) (k : Code)
  | cond (c : Comparison) (a b : Value 8) (taken fallen : Code)
  /-- A branch to the block of an address. -/
  | goto (pc : Word)
  /-- `CLOSE_BACKEDGE`: return if `program_over`, else branch. -/
  | backedge (pc : Word)
  | ret

/-- How control leaves a block. -/
inductive Exit where
  | goto (pc : Word)
  | backedge (pc : Word)
  | ret
  deriving DecidableEq

def seq (ops : List Op) (k : Code) : Code := ops.foldr .op k

/-! ## Values -/

abbrev Slots := Nat → Byte

def BinOp.eval {w : Nat} (o : BinOp) (a b : BitVec w) : BitVec w :=
  match o with
  | .add => a + b
  | .sub => a - b
  | .and => a &&& b
  | .or => a ||| b
  | .xor => a ^^^ b
  | .mul => a * b
  | .shl => a <<< b
  | .shr => a >>> b

def Comparison.eval {w : Nat} (c : Comparison) (a b : BitVec w) : Bool :=
  match c with
  | .eq => a == b
  | .ne => a != b
  | .ugt => a > b
  | .uge => a ≥ b
  | .sgt => b.slt a

def Value.eval (vm : VM) (slots : Slots) : {w : Nat} → Value w → BitVec w
  | _, .const v => v
  | _, .reg x => vm.regs x
  | _, .slot i => slots i
  | _, .addr => vm.addr
  | _, .zext e => (e.eval vm slots).setWidth 16
  | _, .trunc e => (e.eval vm slots).setWidth 8
  | _, .bin o a b => o.eval (a.eval vm slots) (b.eval vm slots)
  | _, .cmp c a b => flag (c.eval (a.eval vm slots) (b.eval vm slots))

/-! ## Helpers

`none` is a call of `errer`, which exits the process. -/

section
variable {E : Type} (P : Host E)

namespace Machine

def mapVM (f : VM → VM) (m : Machine E) : Machine E := { m with vm := f m.vm }

def mapEnv (f : E → E) (m : Machine E) : Machine E := { m with env := f m.env }

/-- The opcode a helper decodes again at `program_counter`. -/
def opcode (m : Machine E) : Word := opcodeAt m.vm.memory m.vm.programCounter

def advance (m : Machine E) : Machine E := m.mapVM fun vm => vm.setPc (vm.programCounter + 2)

/-- `note_store`: raise `smc_pending` if a byte of `[a, a + n)` is code. -/
def noteStore (a : Word) (n : Nat) (m : Machine E) : Machine E :=
  if (List.range n).any fun i => m.codeBytes (mask (a + BitVec.ofNat 16 i)) then
    { m with smcPending := true }
  else m

def retern (m : Machine E) : Option (Machine E) :=
  let m := m.mapEnv P.checkInterrupt
  if m.vm.stackPointer > 0 then
    let sp := m.vm.stackPointer - 1
    some (m.mapVM fun vm => { vm with
      stackPointer := sp
      programCounter := vm.stack sp.toNat })
  else none

def call (m : Machine E) : Option (Machine E) :=
  let op := m.opcode
  let m := m.mapEnv P.checkInterrupt
  if m.vm.stackPointer < (stackSize : Int) then
    some (m.mapVM fun vm => { vm with
      stack := Function.update vm.stack vm.stackPointer.toNat (vm.programCounter + 2)
      stackPointer := vm.stackPointer + 1
      programCounter := target op })
  else none

def randomByte (m : Machine E) : Machine E :=
  let op := m.opcode
  let r := P.rand m.env
  { m with
    vm := m.vm.setReg (opX op) ((r.1 &&& 0xff#32).setWidth 8 &&& immediate8 op)
    env := r.2 }

def storeBcd (m : Machine E) : Machine E :=
  ((m.noteStore m.vm.addr 3).mapVM (Interpreter.bcdStores (opX m.opcode))).advance

def skipKeyX (up : Bool) (m : Machine E) : Machine E :=
  let key := m.vm.regs (opX m.opcode)
  let r := P.allKeysDown m.env
  if (r.1 &&& P.shiftOne key != 0#32) ^^ up then
    { m with env := P.clearKey key r.2 }.advance.advance
  else { m with env := r.2 }.advance

def loadOnKey (m : Machine E) : Option (Machine E) :=
  let r := P.awaitKeys m.env
  let s := Interpreter.scanKeys P.toPlatform (opX m.opcode) r.1 ⟨m.vm, r.2⟩
  if r.1 &&& quitBit != 0#32 then none
  else some { m with vm := s.vm, env := s.env }.advance

def draw (m : Machine E) : Machine E :=
  { m with
    vm := Interpreter.drawSprite m.opcode m.vm
    env := P.frameSync (P.checkInterrupt m.env) }

def saveRegisters (m : Machine E) : Machine E :=
  let x := opX m.opcode
  ((m.noteStore m.vm.addr (x.toNat + 1)).mapVM (Interpreter.saveLoop x)).advance

def restoreRegisters (m : Machine E) : Machine E :=
  m.mapVM (Interpreter.restoreLoop (opX m.opcode))

/-- `jit_idle_wait`, which recovers the polled register from the loop header. -/
def idleWait (m : Machine E) : Machine E :=
  match idleDelayLoop m.vm.memory m.vm.programCounter with
  | some reg => { m with env := P.idleWait m.env, vm := m.vm.setReg reg 0#8 }
  | none => m

end Machine

def Helper.run : Helper → Machine E → Option (Machine E)
  | .clearscreenIo => fun m => some (m.mapVM fun vm => { vm with screen := vm.screen.clearscreenIo })
  | .retern => Machine.retern P
  | .call => Machine.call P
  | .randomByte => fun m => some (m.randomByte P)
  | .draw => fun m => some (m.draw P)
  | .skipKeyXDown => fun m => some (m.skipKeyX P false)
  | .skipKeyXUp => fun m => some (m.skipKeyX P true)
  | .loadOnKey => Machine.loadOnKey P
  | .storeBcd => fun m => some m.storeBcd
  | .saveRegisters => fun m => some m.saveRegisters
  | .restoreRegisters => fun m => some m.restoreRegisters
  | .syncTimers => fun m => some (m.mapEnv P.syncTimers)
  | .idleWait => fun m => some (m.idleWait P)

/-! ## Running native code -/

/-- A machine with the values loaded so far in the instruction. -/
structure Frame (E : Type) where
  machine : Machine E
  slots : Slots

def Frame.value {w : Nat} (f : Frame E) (e : Value w) : BitVec w := e.eval f.machine.vm f.slots

def Frame.mapVM (g : VM → VM) (f : Frame E) : Frame E := { f with machine := f.machine.mapVM g }

def Frame.mapEnv (g : E → E) (f : Frame E) : Frame E := { f with machine := f.machine.mapEnv g }

def Op.run (o : Op) (f : Frame E) : Option (Frame E) :=
  match o with
  | .load i x => some { f with slots := Function.update f.slots i (f.machine.vm.regs x) }
  | .setReg x e => some (f.mapVM fun vm => vm.setReg x (f.value e))
  | .setAddr e => some (f.mapVM fun vm => { vm with addr := f.value e })
  | .setPc e => some (f.mapVM fun vm => vm.setPc (f.value e))
  | .getDelay x =>
    let r := P.getDelayTimer f.machine.env
    some ((f.mapEnv fun _ => r.2).mapVM fun vm => vm.setReg x r.1)
  | .setDelay e => some (f.mapEnv (P.setDelayTimer (f.value e)))
  | .setSound e => some (f.mapEnv (P.setSoundTimer (f.value e)))
  | .call h => (h.run P f.machine).map fun m => { f with machine := m }
  | .retire n => some (f.mapEnv (P.retire n))
  | .safepoint => some (f.mapEnv P.safepoint)

def runAll : List Op → Frame E → Option (Frame E)
  | [], f => some f
  | o :: ops, f => (o.run P f).bind (runAll ops)

/-- Run a block to where control leaves it. -/
def Code.run : Code → Frame E → Option (Machine E × Exit)
  | .op o k, f => (o.run P f).bind k.run
  | .cond c a b taken fallen, f =>
    if c.eval (f.value a) (f.value b) then taken.run f else fallen.run f
  | .goto pc, f => some (f.machine, .goto pc)
  | .backedge pc, f => some (f.machine, .backedge pc)
  | .ret, f => some (f.machine, .ret)

theorem seq_run (ops : List Op) (k : Code) (f : Frame E) :
    (seq ops k).run P f = (runAll P ops f).bind (k.run P) := by
  induction ops generalizing f with
  | nil => rfl
  | cons o ops ih =>
    simp only [seq, List.foldr_cons, Code.run, runAll]
    cases o.run P f with
    | none => rfl
    | some f' => exact ih f'

theorem runAll_append (first second : List Op) (f : Frame E) :
    runAll P (first ++ second) f = (runAll P first f).bind (runAll P second) := by
  induction first generalizing f with
  | nil => rfl
  | cons o ops ih =>
    simp only [List.cons_append, runAll]
    cases o.run P f with
    | none => rfl
    | some f' => exact ih f'

end

end ChipEight.Jit
