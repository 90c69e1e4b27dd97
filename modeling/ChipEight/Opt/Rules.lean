import ChipEight.Machine.Events
import ChipEight.Machine.Tape

/-! What the rules of `optimize_peepholes` do to a machine.

A no-op does nothing but go on, and a folded `LD` does what the `LD` and the `ADD` did. A
load in front of another load of the same register may be left out where the second one
does not read the register and the first has no other effect.
-/

set_option autoImplicit false

namespace ChipEight.Opt

open Interpreter

section
variable {E : Type} {P : Platform E}

/-! ## No-ops and sums -/

theorem exec_move_self (op : Word) (x : Reg) (s : State E) :
    (Insn.alu .move x x).exec P op s = (0#32, advance s) := by
  have same : Function.update s.vm.regs x (s.vm.regs x) = s.vm.regs :=
    Function.update_eq_self x s.vm.regs
  simp only [Insn.exec, stepVM, step, AluOp.apply, VM.setReg, same]

theorem exec_add_zero (op : Word) (x : Reg) (s : State E) :
    (Insn.add x 0#8).exec P op s = (0#32, advance s) := by
  have same : Function.update s.vm.regs x (s.vm.regs x) = s.vm.regs :=
    Function.update_eq_self x s.vm.regs
  simp only [Insn.exec, stepVM, step, VM.setReg, BitVec.add_zero, same]

theorem add_ld_regs (x : Reg) (m n : Byte) (regs : Reg → Byte) :
    Function.update (Function.update regs x m) x (Function.update regs x m x + n) =
      Function.update regs x (m + n) := by
  rw [Function.update_idem, Function.update_self]

/-! ## Overwritten loads -/

theorem scanKeys_forgets (x : Reg) (keys : BitVec 32)
    (pressed : ∃ i < 16, keys &&& 1#32 <<< i ≠ 0#32) (s : State E) (v : Byte) :
    scanKeys P x keys { s with vm := s.vm.setReg x v } = scanKeys P x keys s := by
  obtain ⟨i, small, down⟩ := pressed
  have among : i ∈ List.range 16 := List.mem_range.mpr small
  unfold scanKeys
  generalize List.range 16 = is at among
  induction is generalizing s v with
  | nil => cases among
  | cons j is ih =>
    rw [List.foldl_cons, List.foldl_cons]
    by_cases here : keys &&& 1#32 <<< j = 0#32
    · -- nothing is noted at this key
      have later : i ∈ is := (List.mem_cons.mp among).resolve_left fun same => down (same ▸ here)
      simp only [scanKey, here, bne_self_eq_false, Bool.false_eq_true, if_false]
      exact ih ⟨s.vm, P.clearKey (BitVec.ofNat 8 j) s.env⟩ v later
    · simp only [scanKey, bne_iff_ne, ne_eq, here, not_false_eq_true, if_true, VM.setReg,
        Function.update_idem]

/-- A load that only puts a value into a register. -/
inductive Loads (x : Reg) : Insn → Prop where
  | ld (kk : Byte) : Loads x (.ld x kk)
  | move (y : Reg) : Loads x (.alu .move x y)
  | restore (first : x = 0#4) : Loads x (.restore x)

/-- A load of a register that does not read it. -/
inductive Reloads (x : Reg) : Insn → Prop where
  | ld (kk : Byte) : Reloads x (.ld x kk)
  | move (y : Reg) (other : y ≠ x) : Reloads x (.alu .move x y)
  | ldDelay : Reloads x (.ldDelay x)
  | ldKey : Reloads x (.ldKey x)
  | restore : Reloads x (.restore x)

theorem exec_loads {x : Reg} {i : Insn} (loads : Loads x i) (op : Word) (s : State E) :
    ∃ v, i.exec P op s = (0#32, advance { s with vm := s.vm.setReg x v }) := by
  cases loads with
  | ld kk => exact ⟨kk, rfl⟩
  | move y => exact ⟨s.vm.regs y, rfl⟩
  | restore first =>
    subst first
    exact ⟨s.vm.memAt 0, rfl⟩

/-- The end of a wait for a key is one of the sixteen keys, or the quit key. -/
def Answers (P : Platform E) : Prop :=
  ∀ e, (P.awaitKeys e).1 &&& quitBit = 0#32 → ∃ i < 16, (P.awaitKeys e).1 &&& 1#32 <<< i ≠ 0#32

theorem exec_reloads {x : Reg} {j : Insn} (reloads : Reloads x j) (answers : Answers P) {op : Word}
    (decoded : decode op = some j) {s t : State E} {v : Byte}
    (executed : j.exec P op { s with vm := s.vm.setReg x v } = (0#32, t)) :
    j.exec P op s = (0#32, t) := by
  rw [← executed]
  cases reloads with
  | ld kk => simp only [Insn.exec, stepVM, step, VM.setReg, Function.update_idem]
  | move y other =>
    simp only [Insn.exec, stepVM, step, AluOp.apply, VM.setReg, Function.update_idem,
      Function.update_of_ne other]
  | ldDelay => simp only [Insn.exec, step, VM.setReg, Function.update_idem]
  | restore =>
    have same : restoreLoop x (s.vm.setReg x v) = restoreLoop x s.vm := by
      rw [restoreLoop_regs, restoreLoop_regs]
      unfold VM.setReg
      congr 1
      funext y
      split
      · rfl
      · rename_i above
        refine Function.update_of_ne (fun same => above ?_) _ _
        exact Nat.le_of_eq (congrArg BitVec.toNat same)
    simp only [Insn.exec, stepVM, step, same]
  | ldKey =>
    simp only [Insn.exec] at executed ⊢
    split at executed
    · exact absurd executed (error_fails decoded Insn.noConfusion)
    · rename_i noQuit
      have none : (P.awaitKeys s.env).1 &&& quitBit = 0#32 := by simpa using noQuit
      have same := @scanKeys_forgets E P x _ (answers s.env none)
        { s with env := (P.awaitKeys s.env).2 } v
      dsimp only at same
      rw [same]

theorem restoreLoop_twice (x : Reg) (vm : VM) :
    restoreLoop x (restoreLoop x vm) = restoreLoop x vm := by
  rw [restoreLoop_regs x vm, restoreLoop_regs]
  congr 1
  funext y
  split
  · rfl
  · rename_i above
    exact if_neg above

/-- An instruction leaves nothing behind the next one. -/
def Absorbed (P : Platform E) (i j : Insn) : Prop :=
  ∀ op op' s s₁ s₂, decode op' = some j → i.exec P op s = (0#32, s₁) →
    j.exec P op' s₁ = (0#32, s₂) → j.exec P op' (advance s) = (0#32, s₂)

theorem loads_absorbed {x : Reg} {i j : Insn} (loads : Loads x i) (reloads : Reloads x j)
    (answers : Answers P) : Absorbed P i j := by
  intro op op' s s₁ s₂ decoded first second
  obtain ⟨v, loaded⟩ := @exec_loads E P x i loads op s
  rw [loaded] at first
  cases first
  exact @exec_reloads E P x j reloads answers op' decoded (advance s) s₂ v second

theorem restore_absorbed (x : Reg) : Absorbed P (.restore x) (.restore x) := by
  intro op op' s s₁ s₂ _ first second
  cases first
  cases second
  simp only [Insn.exec, stepVM, step, advance, restoreLoop_setPc, restoreLoop_twice,
    restoreLoop_programCounter]

theorem ldI_absorbed (y z : Addr) : Absorbed P (.ldI y) (.ldI z) := by
  intro op op' s s₁ s₂ _ first second
  cases first
  cases second
  rfl

end

end ChipEight.Opt
