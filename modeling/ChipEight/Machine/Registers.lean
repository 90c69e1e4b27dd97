import ChipEight.Machine.Effects

/-! What an instruction does to the registers. -/

set_option autoImplicit false

namespace ChipEight

/-- The register an instruction is to change. Some change others as well: the flags, or
those below the one `LD Vx, [I]` names. -/
def Insn.named : Insn → Option Reg
  | .ld x _ => some x
  | .add x _ => some x
  | .alu _ x _ => some x
  | .rnd x _ => some x
  | .ldDelay x => some x
  | .ldKey x => some x
  | .restore x => some x
  | _ => none

/-- The address register behind an instruction. -/
def Insn.addrAfter (vm : VM) : Insn → Word
  | .ldI nnn => nnn.setWidth 16
  | .addI x => vm.addr + (vm.regs x).setWidth 16
  | .ldF x => (vm.regs x &&& 0x0f#8).setWidth 16 * 5
  | _ => vm.addr

section
variable {E : Type} (P : Platform E)

theorem exec_addr (op : Word) (i : Insn) (s : State E) :
    (i.exec P op s).2.vm.addr = i.addrAfter s.vm := by
  cases i with
  | save x => exact saveLoop_other VM.addr (fun _ _ _ => rfl) x s.vm
  | restore x => exact restoreLoop_other VM.addr (fun _ _ _ => rfl) x s.vm
  | ldKey x =>
    have scanned := scanKeys_other P VM.addr (fun _ _ _ => rfl) x (P.awaitKeys s.env).1
      { s with env := (P.awaitKeys s.env).2 }
    simp only [Insn.exec]
    split <;> exact scanned
  | ret =>
    simp only [Insn.exec, Interpreter.retern]
    split <;> rfl
  | call nnn =>
    simp only [Insn.exec]
    split <;> rfl
  | skip c =>
    simp only [Insn.exec, Interpreter.skipIf]
    split <;> rfl
  | skipKey x up =>
    simp only [Insn.exec]
    split <;> rfl
  | alu o x y => cases o <;> rfl
  | _ => rfl

/-- What an instruction leaves in a register whose value its operands decide. -/
def Insn.result (vm : VM) : Insn → Option Byte
  | .ld _ kk => some kk
  | .add x kk => some (vm.regs x + kk)
  | .alu .move _ y => some (vm.regs y)
  | .alu .add x y => if x = 15#4 then none else some (vm.regs x + vm.regs y)
  | _ => none

theorem exec_result (op : Word) {i : Insn} {s : State E} {x : Reg} {v : Byte}
    (named : i.named = some x) (result : i.result s.vm = some v) :
    (i.exec P op s).2.vm.regs x = v := by
  cases i with
  | ld z kk =>
    cases named
    cases result
    exact Function.update_self ..
  | add z kk =>
    cases named
    cases result
    exact Function.update_self ..
  | alu o z y =>
    cases named
    cases o with
    | move =>
      cases result
      exact Function.update_self ..
    | add =>
      simp only [Insn.result] at result
      split at result
      · cases result
      · rename_i notFlags
        cases result
        refine (Function.update_of_ne notFlags ..).trans ((Function.update_self ..).trans ?_)
        apply BitVec.eq_of_toNat_eq
        simp only [BitVec.toNat_setWidth, BitVec.toNat_add]
        omega
    | _ => cases result
  | _ => cases result

end

end ChipEight
