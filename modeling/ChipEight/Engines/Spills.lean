import ChipEight.Aot.Refinement
import ChipEight.Jit.Native
import ChipEight.Machine.Spills

/-! `Fx33`, `Fx55` and `Fx65` in every engine.

The helpers of the JITs have the loops of the interpreter's opcode functions in them, between a
`note_store` and an advance of their own; the cases of `chip8_aot_f` are written apart. They leave
the same memory and the same registers.
-/

set_option autoImplicit false

namespace ChipEight

open Interpreter

/-- The same memory, registers and address. -/
structure SameStores (vm vm' : VM) : Prop where
  memory : vm'.memory = vm.memory
  regs : vm'.regs = vm.regs
  addr : vm'.addr = vm.addr

section
variable {E E' E'' : Type} (P : Platform E)

theorem jit_stores (m : Jit.Machine E') (e : E) :
    let op := m.opcode
    let x := opX op
    SameStores ((Insn.save x).exec P op ⟨m.vm, e⟩).2.vm m.saveRegisters.vm ∧
      SameStores ((Insn.restore x).exec P op ⟨m.vm, e⟩).2.vm m.restoreRegisters.vm ∧
      SameStores ((Insn.bcd x).exec P op ⟨m.vm, e⟩).2.vm m.storeBcd.vm := by
  -- `note_store` marks, it does not store
  have noted (a : Word) (n : Nat) : (m.noteStore a n).vm = m.vm := by
    unfold Jit.Machine.noteStore
    split <;> rfl
  refine ⟨?_, ⟨rfl, rfl, rfl⟩, ?_⟩
  · unfold Jit.Machine.saveRegisters
    simp only [Insn.exec, stepVM, step, advance, Jit.Machine.advance, Jit.Machine.mapVM, noted]
    exact ⟨rfl, rfl, rfl⟩
  · unfold Jit.Machine.storeBcd
    simp only [Insn.exec, stepVM, step, advance, Jit.Machine.advance, Jit.Machine.mapVM, noted]
    exact ⟨rfl, rfl, rfl⟩

theorem aot_stores (G : Aot.Host E'') (x : Reg) (op : Word) (a : Aot.Machine E'') (e : E) :
    SameStores ((Insn.save x).exec P op ⟨a.vm, e⟩).2.vm (Aot.chip8AotF G x 85 a).vm ∧
      SameStores ((Insn.restore x).exec P op ⟨a.vm, e⟩).2.vm (Aot.chip8AotF G x 101 a).vm ∧
      SameStores ((Insn.bcd x).exec P op ⟨a.vm, e⟩).2.vm (Aot.chip8AotF G x 51 a).vm := by
  refine ⟨⟨rfl, rfl, rfl⟩, ⟨rfl, rfl, rfl⟩, ?_⟩
  show SameStores _ (Aot.bcdCase x a.vm)
  rw [Aot.bcdCase_eq]
  exact ⟨rfl, rfl, rfl⟩

/-- Stores wrap at twelve bits and change nothing else, registers come back from where they
were stored, the digits are decimal, and the engines agree. -/
theorem spills_wrap (x : Reg) (op op' : Word) (s : State E) (m : Jit.Machine E') (G : Aot.Host E'')
    (a : Aot.Machine E'') (e : E) :
    let saved := ((Insn.save x).exec P op s).2
    let digits := ((Insn.bcd x).exec P op s).2
    (Stores s.vm saved.vm (x.toNat + 1) fun i => s.vm.regs (BitVec.ofNat 4 i)) ∧
      ((Insn.restore x).exec P op' saved).2.vm.regs = s.vm.regs ∧
      (∃ h t o : Byte, (Stores s.vm digits.vm 3 fun i => [h, t, o].getD i 0#8) ∧
        (h.toNat ≤ 9 ∧ t.toNat ≤ 9 ∧ o.toNat ≤ 9) ∧
        100 * h.toNat + 10 * t.toNat + o.toNat = (s.vm.regs x).toNat) ∧
      (SameStores ((Insn.save (opX m.opcode)).exec P m.opcode ⟨m.vm, e⟩).2.vm m.saveRegisters.vm ∧
        SameStores ((Insn.restore (opX m.opcode)).exec P m.opcode ⟨m.vm, e⟩).2.vm
          m.restoreRegisters.vm ∧
        SameStores ((Insn.bcd (opX m.opcode)).exec P m.opcode ⟨m.vm, e⟩).2.vm m.storeBcd.vm) ∧
      (SameStores ((Insn.save x).exec P op ⟨a.vm, e⟩).2.vm (Aot.chip8AotF G x 85 a).vm ∧
        SameStores ((Insn.restore x).exec P op ⟨a.vm, e⟩).2.vm (Aot.chip8AotF G x 101 a).vm ∧
        SameStores ((Insn.bcd x).exec P op ⟨a.vm, e⟩).2.vm (Aot.chip8AotF G x 51 a).vm) := by
  dsimp only
  have spilled := saveLoop_stores x s.vm
  have digits := bcdStores_stores x s.vm
  obtain ⟨small, value⟩ := bcdDigit_value (s.vm.regs x)
  refine ⟨⟨spilled.stored, spilled.kept, spilled.regs, spilled.addr⟩, ?_, ?_,
    jit_stores P m e, aot_stores P G x op a e⟩
  · refine Eq.trans ?_ spilled.restored
    simp only [Insn.exec, stepVM, step, advance, restoreLoop_setPc]
    rfl
  · refine ⟨bcdDigit (s.vm.regs x) 0, bcdDigit (s.vm.regs x) 1, bcdDigit (s.vm.regs x) 2,
      ⟨?_, digits.kept, digits.regs, digits.addr⟩,
      ⟨small 0 (by decide), small 1 (by decide), small 2 (by decide)⟩, value⟩
    intro i inside a here
    refine (digits.stored i inside a here).trans ?_
    rcases (by omega : i = 0 ∨ i = 1 ∨ i = 2) with rfl | rfl | rfl <;> rfl

end

end ChipEight
