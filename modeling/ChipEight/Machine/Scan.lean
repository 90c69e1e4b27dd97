import ChipEight.Machine.Instruction

/-! The scan of `load_on_key`.

It looks at the sixteen keys in turn, so the register is left with the highest one that is
pressed, and every key is cleared.
-/

set_option autoImplicit false

namespace ChipEight

theorem and_oneHot (keys : BitVec 32) (i : Nat) :
    keys &&& 1#32 <<< i ≠ 0#32 ↔ i < 32 ∧ keys.getLsbD i = true := by
  rw [← BitVec.twoPow_eq, BitVec.and_twoPow]
  constructor
  · intro some
    split at some
    · rename_i bit
      exact ⟨BitVec.lt_of_getLsbD bit, bit⟩
    · exact absurd rfl some
  · rintro ⟨small, bit⟩ none
    rw [if_pos bit] at none
    have here := congrArg (fun v => v.getLsbD i) none
    simp [small] at here

theorem and_quitBit (keys : BitVec 32) : keys &&& quitBit = 0#32 ↔ keys.getLsbD 31 = false := by
  have bit : keys &&& quitBit ≠ 0#32 ↔ 31 < 32 ∧ keys.getLsbD 31 = true := and_oneHot keys 31
  rw [← not_iff_not, ← ne_eq, bit]
  simp

theorem setReg_setReg (vm : VM) (x : Reg) (v w : Byte) :
    (vm.setReg x v).setReg x w = vm.setReg x w := by
  unfold VM.setReg
  rw [Function.update_idem]

/-- The keys of a mask, the lowest first. -/
def pressed (keys : BitVec 32) : List Nat :=
  (List.range 16).filter fun i => keys &&& 1#32 <<< i != 0#32

theorem mem_pressed {keys : BitVec 32} {i : Nat} :
    i ∈ pressed keys ↔ i < 16 ∧ keys.getLsbD i = true := by
  rw [pressed, List.mem_filter, List.mem_range, bne_iff_ne, and_oneHot]
  constructor
  · exact fun ⟨small, _, bit⟩ => ⟨small, bit⟩
  · exact fun ⟨small, bit⟩ => ⟨small, by omega, bit⟩

theorem pressed_sorted (keys : BitVec 32) : (pressed keys).Pairwise (· < ·) :=
  List.pairwise_lt_range.filter _

section
variable {E : Type} (P : Platform E)

open Interpreter

theorem scanKeys_eq (x : Reg) (keys : BitVec 32) (s : State E) :
    scanKeys P x keys s =
      ⟨(pressed keys).foldl (fun vm i => vm.setReg x (BitVec.ofNat 8 i)) s.vm,
        (List.range 16).foldl (fun e i => P.clearKey (BitVec.ofNat 8 i) e) s.env⟩ := by
  unfold scanKeys pressed
  generalize List.range 16 = is
  induction is generalizing s with
  | nil => rfl
  | cons i is ih =>
    rw [List.foldl_cons, ih, scanKey, List.filter_cons]
    split <;> rfl

theorem setReg_last (x : Reg) (vm : VM) (keys : List Nat) :
    keys.foldl (fun vm i => vm.setReg x (BitVec.ofNat 8 i)) vm =
      keys.getLast?.elim vm fun k => vm.setReg x (BitVec.ofNat 8 k) := by
  induction keys using List.reverseRecOn with
  | nil => rfl
  | append_singleton keys k ih =>
    rw [List.foldl_append, ih, List.foldl_cons, List.foldl_nil, List.getLast?_concat]
    cases keys.getLast? with
    | none => rfl
    | some earlier =>
      exact setReg_setReg vm x (BitVec.ofNat 8 earlier) (BitVec.ofNat 8 k)

theorem scanKeys_vm (x : Reg) (keys : BitVec 32) (s : State E) :
    (scanKeys P x keys s).vm =
      (pressed keys).getLast?.elim s.vm fun k => s.vm.setReg x (BitVec.ofNat 8 k) := by
  rw [scanKeys_eq]
  exact setReg_last x s.vm (pressed keys)

theorem scanKeys_other {α : Type} (part : VM → α)
    (blind : ∀ vm x v, part (vm.setReg x v) = part vm) (x : Reg) (keys : BitVec 32)
    (s : State E) : part (scanKeys P x keys s).vm = part s.vm := by
  rw [scanKeys_vm]
  cases (pressed keys).getLast? with
  | none => rfl
  | some k => exact blind s.vm x (BitVec.ofNat 8 k)

theorem scanKeys_programCounter (x : Reg) (keys : BitVec 32) (s : State E) :
    (scanKeys P x keys s).vm.programCounter = s.vm.programCounter :=
  scanKeys_other P VM.programCounter (fun _ _ _ => rfl) x keys s

end

end ChipEight
