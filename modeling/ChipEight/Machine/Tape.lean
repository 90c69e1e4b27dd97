import ChipEight.Library.Run
import ChipEight.Machine.Instruction

/-! The interactive interpreter on recorded inputs.

What a run reads from outside is a tape: the k-th delay-timer read, key-mask read,
key wait and `rand ()` of a run each have a fixed value. Two engines that consult the
outside equally often then receive the same values, whatever the host clock did.
-/

set_option autoImplicit false

namespace ChipEight

structure Tape where
  delayTimer : Nat → Byte
  keys : Nat → BitVec 32
  awaited : Nat → BitVec 32
  rand : Nat → BitVec 32

/-- How much of each part of a tape a run has read. -/
structure Cursor where
  delayTimer : Nat
  keys : Nat
  awaited : Nat
  rand : Nat
  deriving DecidableEq

def Cursor.start : Cursor := ⟨0, 0, 0, 0⟩

/-- Nothing pressed, timers at zero. -/
def quietTape : Tape := ⟨fun _ => 0#8, fun _ => 0#32, fun _ => 0#32, fun _ => 0#32⟩

/-- The interpreter's start on a ROM. -/
def interpreterStart (rom : List Byte) : State Cursor := ⟨VM.boot rom, .start⟩

/-- `1 << key`, which C leaves undefined from 32 on. -/
def shiftKey (undefinedShift : Byte → BitVec 32) (key : Byte) : BitVec 32 :=
  if key < 32#8 then 1#32 <<< key.toNat else undefinedShift key

section
variable (tape : Tape) (undefinedShift : Byte → BitVec 32)

def Tape.readDelayTimer (c : Cursor) : Byte × Cursor :=
  (tape.delayTimer c.delayTimer, { c with delayTimer := c.delayTimer + 1 })

def Tape.readKeys (c : Cursor) : BitVec 32 × Cursor :=
  (tape.keys c.keys, { c with keys := c.keys + 1 })

def Tape.readAwaited (c : Cursor) : BitVec 32 × Cursor :=
  (tape.awaited c.awaited, { c with awaited := c.awaited + 1 })

def Tape.readRand (c : Cursor) : BitVec 32 × Cursor :=
  (tape.rand c.rand, { c with rand := c.rand + 1 })

/-- Timer writes and key clears act on the host only through later reads, which the
tape already fixes. -/
def tapePlatform : Platform Cursor where
  interrupt := id
  syncTimers := id
  getDelayTimer := tape.readDelayTimer
  setDelayTimer := fun _ => id
  setSoundTimer := fun _ => id
  rand := tape.readRand
  allKeysDown := tape.readKeys
  clearKey := fun _ => id
  awaitKeys := tape.readAwaited
  shiftOne := shiftKey undefinedShift
  frameSync := id

end

section
variable {E : Type} (P : Platform E)

/-- `basic_block`, stopping at an error. -/
def blockStep (s : State E) : Option (State E) :=
  let r := Interpreter.basicBlock P s
  if r.1 == 0#32 then some r.2 else none

/-- A pass of the loop of `main`, without `--elide-idle`. -/
def mainStep (s : State E) : Option (State E) :=
  let r := P.allKeysDown s.env
  if r.1 &&& quitBit != 0#32 then none else blockStep P { s with env := r.2 }

theorem blockStep_eq_some {s t : State E} :
    blockStep P s = some t ↔ Interpreter.basicBlock P s = (0#32, t) := by
  simp only [blockStep, beq_iff_eq, Option.ite_none_right_eq_some, Option.some.injEq,
    Prod.ext_iff]

theorem blockStep_decodes {s t : State E} (stepped : blockStep P s = some t) :
    ∃ i, decode (opcodeAt s.vm.memory s.vm.programCounter) = some i ∧
      i.exec P (opcodeAt s.vm.memory s.vm.programCounter) s = (0#32, t) :=
  basicBlock_decodes P ((blockStep_eq_some P).mp stepped)

theorem blockStep_of_exec {s t : State E} {i : Insn}
    (decoded : decode (opcodeAt s.vm.memory s.vm.programCounter) = some i)
    (executed : i.exec P (opcodeAt s.vm.memory s.vm.programCounter) s = (0#32, t)) :
    blockStep P s = some t := by
  rw [blockStep_eq_some, basicBlock_eq, decoded]
  exact executed

theorem blockStep_of_error {s t : State E} {i : Insn} {op pc : Word} (nonzero : op ≠ 0#16)
    (decoded : decode (opcodeAt s.vm.memory s.vm.programCounter) = some i)
    (failed : i.exec P (opcodeAt s.vm.memory s.vm.programCounter) s = (errorCode op pc, t)) :
    blockStep P s = none := by
  rw [Option.eq_none_iff_forall_ne_some]
  intro u stepped
  rw [blockStep_eq_some, basicBlock_eq, decoded] at stepped
  exact errorCode_ne_zero nonzero (congrArg Prod.fst (failed.symm.trans stepped))

theorem mainStep_eq_some {s t : State E} :
    mainStep P s = some t ↔ (P.allKeysDown s.env).1 &&& quitBit = 0#32 ∧
      blockStep P { s with env := (P.allKeysDown s.env).2 } = some t := by
  simp only [mainStep, bne_iff_ne, ne_eq, ite_not, Option.ite_none_right_eq_some]

end

end ChipEight
