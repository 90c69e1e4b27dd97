import ChipEight.Machine.Rom
import ChipEight.Machine.Tape

/-! Where an instruction passes control. -/

set_option autoImplicit false

namespace ChipEight

/-- The addresses an instruction at `pc` can go on to, those a register or the stack
decides apart. -/
def Insn.flows (pc : Word) : Insn → List Word
  | .ret => []
  | .jp nnn => [nnn.setWidth 16]
  | .call nnn => [nnn.setWidth 16, pc + 2]
  | .skip _ => [pc + 2, pc + 4]
  | .jpV0 _ => []
  | .skipKey _ _ => [pc + 2, pc + 4]
  | _ => [pc + 2]

section
variable {E : Type} {P : Platform E}

theorem error_fails {op : Word} {i : Insn} {s t : State E} (decoded : decode op = some i)
    (notZero : i ≠ .jp 0#12) : Interpreter.error op s ≠ (0#32, t) := by
  intro failed
  refine errorCode_ne_zero ?_ (congrArg Prod.fst failed)
  rintro rfl
  rw [decode_zero] at decoded
  exact notZero (Option.some.inj decoded).symm

theorem exec_flows {op : Word} {i : Insn} {s t : State E} (decoded : decode op = some i)
    (notRet : i ≠ .ret) (notBranch : ∀ nnn, i ≠ .jpV0 nnn)
    (executed : i.exec P op s = (0#32, t)) :
    t.vm.programCounter ∈ i.flows s.vm.programCounter := by
  have after : t = (i.exec P op s).2 := congrArg Prod.snd executed.symm
  have four : s.vm.programCounter + 2 + 2 = s.vm.programCounter + 4 :=
    BitVec.add_assoc s.vm.programCounter 2#16 2#16
  -- Instructions that loop over registers or keys leave the program counter alone.
  cases i with
  | ret => exact absurd rfl notRet
  | jpV0 nnn => exact absurd rfl (notBranch nnn)
  | jp nnn =>
    rw [after]
    exact List.mem_cons_self
  | call nnn =>
    simp only [Insn.exec] at executed
    split at executed
    · cases executed
      exact List.mem_cons_self
    · exact absurd executed (error_fails decoded Insn.noConfusion)
  | skip c =>
    rw [after]
    simp only [Insn.exec, Interpreter.skipIf]
    split
    · exact List.mem_cons_of_mem _ (List.mem_singleton.mpr four)
    · exact List.mem_cons_self
  | skipKey x up =>
    rw [after]
    simp only [Insn.exec]
    split
    · exact List.mem_cons_of_mem _ (List.mem_singleton.mpr four)
    · exact List.mem_cons_self
  | ldKey x =>
    have scanned := scanKeys_programCounter P x (P.awaitKeys s.env).1
      { s with env := (P.awaitKeys s.env).2 }
    simp only [Insn.exec] at executed
    split at executed
    · exact absurd executed (error_fails decoded Insn.noConfusion)
    · cases executed
      exact List.mem_singleton.mpr (congrArg (· + 2) scanned)
  | alu o x y =>
    rw [after]
    exact List.mem_singleton.mpr (congrArg (· + 2) (apply_programCounter o x y s.vm))
  | save x =>
    rw [after]
    exact List.mem_singleton.mpr (congrArg (· + 2) (saveLoop_programCounter x s.vm))
  | restore x =>
    rw [after]
    exact List.mem_singleton.mpr (congrArg (· + 2) (restoreLoop_programCounter x s.vm))
  | _ =>
    rw [after]
    exact List.mem_singleton.mpr rfl

theorem exec_ret {op : Word} {s t : State E} (decoded : decode op = some .ret)
    (executed : Insn.exec P op .ret s = (0#32, t)) :
    0 < s.vm.stackPointer ∧ t.vm.stack = s.vm.stack ∧
      t.vm.stackPointer = s.vm.stackPointer - 1 ∧
      t.vm.programCounter = s.vm.stack (s.vm.stackPointer - 1).toNat := by
  simp only [Insn.exec, Interpreter.retern] at executed
  split at executed
  · rename_i some
    cases executed
    exact ⟨some, rfl, rfl, rfl⟩
  · exact absurd executed (error_fails decoded Insn.noConfusion)

theorem exec_call {op : Word} {nnn : Addr} {s t : State E} (decoded : decode op = some (.call nnn))
    (executed : (Insn.call nnn).exec P op s = (0#32, t)) :
    t.vm.stackPointer = s.vm.stackPointer + 1 ∧
      t.vm.stack = Function.update s.vm.stack s.vm.stackPointer.toNat
        (s.vm.programCounter + 2) := by
  simp only [Insn.exec] at executed
  split at executed
  · cases executed
    exact ⟨rfl, rfl⟩
  · exact absurd executed (error_fails decoded Insn.noConfusion)

end

end ChipEight
