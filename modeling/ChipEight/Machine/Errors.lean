import ChipEight.Machine.Interactive
import ChipEight.Machine.Scan

/-! The errors of `basic_block`.

A code is packed from the word and the program counter, and is not mistaken for success. The
handlers that can fail do some of their work first: they service the host, and the wait of
`Fx0A` stores a key before it looks for the quit key.
-/

set_option autoImplicit false

namespace ChipEight

open Interpreter

section
variable {E : Type} (P : Platform E)

/-- An instruction that cannot be executed. -/
def Insn.Rejects (s : State E) : Insn → Prop
  | .ret => ¬ s.vm.stackPointer > 0
  | .call _ => ¬ s.vm.stackPointer < (stackSize : Int)
  | .ldKey _ => (P.awaitKeys s.env).1 &&& quitBit ≠ 0#32
  | _ => False

/-- The machine it leaves: `Fx0A` has stored the highest key of its mask. -/
def Insn.rejected (s : State E) : Insn → VM
  | .ldKey x => (pressed (P.awaitKeys s.env).1).getLast?.elim s.vm fun k =>
      s.vm.setReg x (BitVec.ofNat 8 k)
  | _ => s.vm

/-- The word at the program counter is undecodable, or its instruction cannot be executed. -/
def Rejects (s : State E) : Prop :=
  (decode (opcodeAt s.vm.memory s.vm.programCounter)).elim True fun i => i.Rejects P s

def rejected (s : State E) : VM :=
  (decode (opcodeAt s.vm.memory s.vm.programCounter)).elim s.vm fun i => i.rejected P s

variable {P}

theorem decoded_ne_zero {op : Word} (notJump : decode op ≠ some (.jp 0#12)) : op ≠ 0#16 := by
  intro zero
  rw [zero, decode_zero] at notJump
  exact notJump rfl

/-- One case for each instruction that can fail; the others step. -/
theorem exec_errors {op : Word} {i : Insn} (decoded : decode op = some i) (s : State E) :
    (i.exec P op s).1 ≠ 0#32 ↔ i.Rejects P s := by
  -- The code of an error is the word and its address, and the word is not zero.
  have failing {s' : State E} (notJump : i ≠ .jp 0#12) : (error op s').1 ≠ 0#32 :=
    errorCode_ne_zero (decoded_ne_zero fun same => notJump (Option.some.inj (decoded.symm.trans same)))
  cases i with
  | ret =>
    simp only [Insn.exec, retern]
    split
    · rename_i some
      exact ⟨fun wrong => absurd rfl wrong, fun empty => absurd some empty⟩
    · rename_i empty
      exact ⟨fun _ => empty, fun _ => failing Insn.noConfusion⟩
  | call nnn =>
    simp only [Insn.exec]
    split
    · rename_i room
      exact ⟨fun wrong => absurd rfl wrong, fun full => absurd room full⟩
    · rename_i full
      exact ⟨fun _ => full, fun _ => failing Insn.noConfusion⟩
  | ldKey x =>
    simp only [Insn.exec]
    split
    · rename_i quit
      exact ⟨fun _ => bne_iff_ne.mp quit, fun _ => failing Insn.noConfusion⟩
    · rename_i plays
      exact ⟨fun wrong => absurd rfl wrong, fun quit => absurd (bne_iff_ne.mpr quit) plays⟩
  | skip c =>
    simp only [Insn.exec, skipIf]
    split <;> exact ⟨fun wrong => absurd rfl wrong, False.elim⟩
  | skipKey x up =>
    simp only [Insn.exec]
    split <;> exact ⟨fun wrong => absurd rfl wrong, False.elim⟩
  | alu o x y => cases o <;> exact ⟨fun wrong => absurd rfl wrong, False.elim⟩
  | _ => exact ⟨fun wrong => absurd rfl wrong, False.elim⟩

theorem exec_left {op : Word} {i : Insn} (s : State E) (failed : (i.exec P op s).1 ≠ 0#32) :
    (i.exec P op s).2.vm = i.rejected P s := by
  cases i with
  | ret =>
    simp only [Insn.exec, retern] at failed ⊢
    split
    · rename_i some
      rw [if_pos some] at failed
      exact absurd rfl failed
    · rfl
  | call nnn =>
    simp only [Insn.exec] at failed ⊢
    split
    · rename_i room
      rw [if_pos room] at failed
      exact absurd rfl failed
    · rfl
  | ldKey x =>
    simp only [Insn.exec] at failed ⊢
    split
    · -- The quit bit is looked at behind the scan.
      exact scanKeys_vm P x _ _
    · rename_i plays
      rw [if_neg plays] at failed
      exact absurd rfl failed
  | skip c =>
    simp only [Insn.exec, skipIf] at failed
    exact absurd rfl failed
  | skipKey x up =>
    simp only [Insn.exec] at failed
    split at failed <;> exact absurd rfl failed
  | alu o x y => cases o <;> exact absurd rfl failed
  | _ => exact absurd rfl failed

/-- `basic_block` fails exactly where the instruction cannot be executed, and leaves the machine
as it was but for the key that `Fx0A` has stored. -/
theorem basicBlock_errors (P : Platform E) (s : State E) :
    ((basicBlock P s).1 ≠ 0#32 ↔ Rejects P s) ∧
      ((basicBlock P s).1 ≠ 0#32 → (basicBlock P s).2.vm = rejected P s) := by
  rw [basicBlock_eq]
  unfold Rejects rejected
  cases decoded : decode (opcodeAt s.vm.memory s.vm.programCounter) with
  | none =>
    have nonzero := @decoded_ne_zero (opcodeAt s.vm.memory s.vm.programCounter) fun jump => by
      rw [decoded] at jump
      cases jump
    exact ⟨⟨fun _ => trivial, fun _ => errorCode_ne_zero nonzero⟩, fun _ => rfl⟩
  | some i => exact ⟨exec_errors decoded s, exec_left s⟩

end

/-- The quit key together with key 5. -/
def quittingOutside : Outside := { quietOutside with awaited := fun _ => quitBit ||| 1#32 <<< 5 }

/-- `LD V0, K` fails, but has stored the key. -/
theorem basicBlock_stores :
    let s : State Live := ⟨VM.boot [0xf0#8, 0x0a#8], .boot 0⟩
    let r := basicBlock (livePlatform quittingOutside fun _ => 0#32) s
    ¬ (r.1 ≠ 0#32 → r.2.vm.regs = s.vm.regs) := by
  intro s r same
  have stored : r.2.vm.regs 0#4 = 5#8 := by decide
  rw [same (by decide)] at stored
  exact absurd stored (by decide)

end ChipEight
