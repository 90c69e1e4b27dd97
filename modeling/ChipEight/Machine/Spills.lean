import ChipEight.Machine.Registers

/-! What `Fx33`, `Fx55` and `Fx65` do to memory and registers.

The loops step through memory from a 16-bit address, and every address wraps at 4096. As at
most sixteen bytes are touched they are apart, so what is stored is found again.
-/

set_option autoImplicit false

namespace ChipEight

open Interpreter

/-- Bytes are stored one after the other from `addr` on, and nothing else is changed of
memory, registers and address. -/
structure Stores (vm vm' : VM) (n : Nat) (values : Nat → Byte) : Prop where
  stored : ∀ i < n, ∀ a : Addr, a.toNat = (vm.addr.toNat + i) % 4096 → vm'.memory a = values i
  kept : ∀ a : Addr, (∀ i < n, a.toNat ≠ (vm.addr.toNat + i) % 4096) → vm'.memory a = vm.memory a
  regs : vm'.regs = vm.regs
  addr : vm'.addr = vm.addr

/-! ## Addresses -/

theorem wrapped_toNat (addr : Word) (i : Nat) :
    (mask (addr + BitVec.ofNat 16 i)).toNat = (addr.toNat + i) % 4096 := by
  simp only [mask, BitVec.toNat_setWidth, BitVec.toNat_add, BitVec.toNat_ofNat]
  omega

theorem wrapped_eq {addr : Word} {i : Nat} {a : Addr} (here : a.toNat = (addr.toNat + i) % 4096) :
    a = mask (addr + BitVec.ofNat 16 i) := by
  apply BitVec.eq_of_toNat_eq
  rw [here, wrapped_toNat]

theorem span_apart {addr : Word} {i j : Nat} (small : i < 4096) (small' : j < 4096)
    (same : mask (addr + BitVec.ofNat 16 i) = mask (addr + BitVec.ofNat 16 j)) : i = j := by
  have numbers := congrArg BitVec.toNat same
  rw [wrapped_toNat, wrapped_toNat] at numbers
  omega

theorem outside_span {addr : Word} {n : Nat} {a : Addr}
    (outside : ∀ i < n, a.toNat ≠ (addr.toNat + i) % 4096) : a ∉ span addr n := by
  intro inside
  obtain ⟨i, small, here⟩ := mem_span.mp inside
  apply outside i small
  rw [← here, wrapped_toNat]

/-! ## Stores -/

theorem stores_at {addr : Word} {values : Nat → Byte} {n : Nat} (small : n ≤ 4096) {vm : VM}
    (here : vm.addr = addr) {j : Nat} (inside : j < n) :
    ((List.range n).foldl (fun vm i => vm.storeAt i (values i)) vm).memory
      (mask (addr + BitVec.ofNat 16 j)) = values j := by
  have kept (n : Nat) :
      ((List.range n).foldl (fun vm i => vm.storeAt i (values i)) vm).addr = addr := by
    induction n with
    | zero => exact here
    | succ n ih =>
      rw [List.range_succ, List.foldl_append]
      exact ih
  induction n with
  | zero => exact absurd inside (Nat.not_lt_zero j)
  | succ n ih =>
    rw [List.range_succ, List.foldl_append, List.foldl_cons, List.foldl_nil, VM.storeAt, kept n]
    rcases Nat.lt_succ_iff_lt_or_eq.mp inside with before | rfl
    · refine (Function.update_of_ne (fun same => ?_) _ _).trans (ih (by omega) before)
      exact absurd (span_apart (by omega) (by omega) same) (Nat.ne_of_lt before)
    · exact Function.update_self _ _ _

theorem saveLoop_eq (x : Reg) (vm : VM) :
    saveLoop x vm = (List.range (x.toNat + 1)).foldl
      (fun m i => m.storeAt i (vm.regs (BitVec.ofNat 4 i))) vm := by
  have loop (is : List Nat) (m : VM) (regs : m.regs = vm.regs) :
      is.foldl (fun m i => m.storeAt i (m.regs (BitVec.ofNat 4 i))) m =
        is.foldl (fun m i => m.storeAt i (vm.regs (BitVec.ofNat 4 i))) m := by
    induction is generalizing m with
    | nil => rfl
    | cons i is ih =>
      rw [List.foldl_cons, List.foldl_cons, regs]
      exact ih _ regs
  exact loop _ vm rfl

theorem saveLoop_regs (x : Reg) (vm : VM) : (saveLoop x vm).regs = vm.regs :=
  saveLoop_other VM.regs (fun _ _ _ => rfl) x vm

theorem saveLoop_stores (x : Reg) (vm : VM) :
    Stores vm (saveLoop x vm) (x.toNat + 1) fun i => vm.regs (BitVec.ofNat 4 i) where
  stored i inside a here := by
    have short : x.toNat + 1 ≤ 4096 := by omega
    rw [wrapped_eq here, saveLoop_eq]
    exact stores_at short rfl inside
  kept a outside := saveLoop_memory x vm (outside_span outside)
  regs := saveLoop_regs x vm
  addr := saveLoop_other VM.addr (fun _ _ _ => rfl) x vm

/-- The digits of `store_bcd`. -/
def bcdDigit (v : Byte) : Nat → Byte
  | 0 => v / 100#8
  | 1 => v % 100#8 / 10#8
  | _ => v % 100#8 % 10#8

theorem bcdDigit_value (v : Byte) :
    (∀ i < 3, (bcdDigit v i).toNat ≤ 9) ∧
      100 * (bcdDigit v 0).toNat + 10 * (bcdDigit v 1).toNat + (bcdDigit v 2).toNat = v.toNat := by
  have bound := v.isLt
  simp only [bcdDigit, BitVec.toNat_udiv, BitVec.toNat_umod, BitVec.toNat_ofNat, Nat.reducePow,
    Nat.reduceMod]
  constructor
  · intro i small
    rcases (by omega : i = 0 ∨ i = 1 ∨ i = 2) with rfl | rfl | rfl <;>
      simp only [BitVec.toNat_udiv, BitVec.toNat_umod, BitVec.toNat_ofNat, Nat.reducePow,
        Nat.reduceMod] <;> omega
  · omega

theorem bcdStores_stores (x : Reg) (vm : VM) :
    Stores vm (bcdStores x vm) 3 (bcdDigit (vm.regs x)) where
  stored i inside a here := by
    rw [wrapped_eq here]
    exact @stores_at vm.addr (bcdDigit (vm.regs x)) 3 (by decide) vm rfl i inside
  kept a outside := bcdStores_memory x vm (outside_span outside)
  regs := rfl
  addr := rfl

/-! ## Reloads -/

theorem restoreLoop_regs (x : Reg) (vm : VM) :
    restoreLoop x vm = { vm with regs := fun y =>
      if y.toNat ≤ x.toNat then vm.memAt y.toNat else vm.regs y } := by
  have loop (n : Nat) (small : n ≤ 16) :
      (List.range n).foldl (fun vm i => vm.setReg (BitVec.ofNat 4 i) (vm.memAt i)) vm =
        { vm with regs := fun y => if y.toNat < n then vm.memAt y.toNat else vm.regs y } := by
    -- The last turn of the loop writes register `n` and reads memory, which no turn writes.
    induction n with
    | zero => simp
    | succ n ih =>
      rw [List.range_succ, List.foldl_append, ih (by omega), List.foldl_cons, List.foldl_nil]
      unfold VM.setReg
      congr 1
      funext y
      dsimp only [VM.memAt]
      by_cases here : y = BitVec.ofNat 4 n
      · have number : y.toNat = n := by
          rw [here, BitVec.toNat_ofNat, Nat.mod_eq_of_lt (by omega)]
        rw [here, Function.update_self, ← here, number, if_pos (Nat.lt_succ_self n)]
      · have number : y.toNat ≠ n := fun same => here (by
          rw [← same, BitVec.ofNat_toNat, BitVec.setWidth_eq])
        rw [Function.update_of_ne here]
        by_cases low : y.toNat < n
        · rw [if_pos low, if_pos (by omega)]
        · rw [if_neg low, if_neg (by omega)]
  have size := x.isLt
  unfold restoreLoop
  rw [loop (x.toNat + 1) (by omega)]
  simp only [Nat.lt_succ_iff]

theorem Stores.restored {vm vm' : VM} {x : Reg}
    (stores : Stores vm vm' (x.toNat + 1) fun i => vm.regs (BitVec.ofNat 4 i)) :
    (restoreLoop x vm').regs = vm.regs := by
  rw [restoreLoop_regs]
  funext y
  dsimp only [VM.memAt]
  split
  · rename_i low
    rw [stores.addr, stores.stored y.toNat (by omega) _ (wrapped_toNat vm.addr y.toNat)]
    simp
  · rw [stores.regs]

end ChipEight
