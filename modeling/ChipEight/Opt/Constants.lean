import ChipEight.Machine.Flow
import ChipEight.Machine.Registers
import ChipEight.Opt.Fixpoint

/-! The constants of `analyze` are those of a run. -/

set_option autoImplicit false

namespace ChipEight.Opt

open Asm (Text Token wordDT wordK)

/-! ## What a state of `analyze` says -/

/-- A state says of a machine that its constants are right. -/
structure Describes (σ : Constants) (vm : VM) : Prop where
  regs : ∀ x : Reg, ∀ v, σ.regs x.toFin = some v → v = ((vm.regs x).toNat : Int)
  addr : ∀ v, σ.i = some v → 0 ≤ v → v = (vm.addr.toNat : Int)

theorem describes_initial (vm : VM) : Describes .initial vm where
  regs _ _ known := nomatch known
  addr _ known := nomatch known

theorem Describes.mono {τ σ : Constants} {vm : VM} (above : τ.join σ = τ)
    (describes : Describes σ vm) : Describes τ vm := by
  have atI : τ.i = none ∨ τ.i = σ.i := joinValue_eq (congrArg Constants.i above)
  have atReg (x : Fin 16) : τ.regs x = none ∨ τ.regs x = σ.regs x :=
    joinValue_eq (congrFun (congrArg Constants.regs above) x)
  constructor
  · intro x v known
    obtain none | same := atReg x.toFin
    · rw [none] at known
      cases known
    · exact describes.regs x v (same ▸ known)
  · intro v known
    obtain none | same := atI
    · rw [none] at known
      cases known
    · exact describes.addr v (same ▸ known)

/-! ## Instructions -/

/-- A step without an effect `analyze` forgets on the constants it holds. It forgets the flags,
the registers `LD Vx, [I]` loads below `Vx`, that -1 is not the address of a digit, and that `I`
is a word. -/
structure Plain (σ : Constants) (i : Insn) (vm vm' : VM) : Prop where
  others : ∀ y : Reg, i.named ≠ some y → σ.regs y.toFin ≠ none → vm'.regs y = vm.regs y
  sum : ∀ y : Reg, i = .alu .add 15#4 y → σ.regs 15 ≠ none → σ.regs y.toFin ≠ none →
    vm'.regs 15#4 = vm.regs 15#4 + vm.regs y
  digit : ∀ x : Reg, i = .addI x → σ.i = some externalI → ∀ n, σ.regs x.toFin = some n → n = 0
  word : ∀ x : Reg, i = .addI x → ∀ base, σ.i = some base → 0 ≤ base → σ.regs x.toFin ≠ none →
    vm.addr.toNat + (vm.regs x).toNat < 2 ^ 16

theorem setReg_regs (σ : Constants) (x y : Reg) (v : Option Int) :
    (σ.setReg x.toFin v).regs y.toFin = if y = x then v else σ.regs y.toFin := by
  show Function.update σ.regs x.toFin v y.toFin = _
  rw [Function.update_apply]
  by_cases same : y = x
  · rw [if_pos same, if_pos (congrArg BitVec.toFin same)]
  · rw [if_neg same, if_neg fun equal => same (BitVec.eq_of_toFin_eq equal)]

section
variable {E : Type} {P : Platform E}

theorem addValues_some {a b : Option Int} {v : Int} (known : addValues a b = some v) :
    ∃ m n, a = some m ∧ b = some n ∧ v = (m + n) % 256 := by
  unfold addValues at known
  split at known
  · cases known
    exact ⟨_, _, rfl, rfl, rfl⟩
  · cases known

theorem sum_toNat (a b : Byte) : (((a + b).toNat : Nat) : Int) = ((a.toNat : Int) + b.toNat) % 256 := by
  rw [BitVec.toNat_add]
  omega

theorem after_regs {σ : Constants} {op : Word} {i : Insn} {s t : State E}
    (describes : Describes σ s.vm) (executed : i.exec P op s = (0#32, t))
    (plain : Plain σ i s.vm t.vm) (x : Reg) (v : Int)
    (known : (σ.after i).regs x.toFin = some v) : v = ((t.vm.regs x).toNat : Int) := by
  have after : t = (i.exec P op s).2 := congrArg Prod.snd executed.symm
  -- A constant that was there before stands, as `Plain` says that its register does.
  have kept (other : i.named ≠ some x) (old : σ.regs x.toFin = some v) :
      v = ((t.vm.regs x).toNat : Int) := by
    rw [plain.others x other (old ▸ Option.some_ne_none v)]
    exact describes.regs x v old
  have result {b : Byte} (named : i.named = some x) (result : i.result s.vm = some b) :
      t.vm.regs x = b := by
    rw [after]
    exact exec_result P op named result
  -- An unknown result: what is still known is about another register.
  have forgotten {z : Reg} (named : i.named = some z)
      (known : (σ.setReg z.toFin none).regs x.toFin = some v) :
      v = ((t.vm.regs x).toNat : Int) := by
    rw [setReg_regs] at known
    split at known
    · cases known
    · rename_i other
      exact kept (fun same => other (Option.some.inj (named.symm.trans same)).symm) known
  -- A sum of constants is the sum the machine stores, reduced alike.
  have summed {z : Reg} {b : Byte} {w : Option Int} (named : i.named = some z)
      (value : ∀ n, w = some n → n = (b.toNat : Int))
      (stores : x = z → σ.regs z.toFin ≠ none → w ≠ none → t.vm.regs x = s.vm.regs z + b)
      (known : (σ.setReg z.toFin (addValues (σ.regs z.toFin) w)).regs x.toFin = some v) :
      v = ((t.vm.regs x).toNat : Int) := by
    rw [setReg_regs] at known
    split at known
    · rename_i same
      obtain ⟨m, n, first, second, rfl⟩ := addValues_some known
      rw [stores same (first ▸ Option.some_ne_none m) (second ▸ Option.some_ne_none n), sum_toNat,
        describes.regs z m first, value n second]
    · rename_i other
      exact kept (fun same => other (Option.some.inj (named.symm.trans same)).symm) known
  cases i with
  | ld z kk =>
    dsimp only [Constants.after] at known
    rw [setReg_regs] at known
    split at known
    · rename_i same
      cases known
      rw [result (congrArg some same.symm) rfl]
    · rename_i other
      exact kept (fun same => other (Option.some.inj same).symm) known
  | add z kk =>
    refine @summed z kk _ rfl (fun n same => (Option.some.inj same).symm) ?_ known
    intro same _ _
    subst same
    exact result rfl rfl
  | alu o z y =>
    cases o with
    | move =>
      dsimp only [Constants.after] at known
      rw [setReg_regs] at known
      split at known
      · rename_i same
        rw [result (congrArg some same.symm) rfl]
        exact describes.regs y v known
      · rename_i other
        exact kept (fun same => other (Option.some.inj same).symm) known
    | add =>
      refine @summed z (s.vm.regs y) _ rfl (fun n same => describes.regs y n same) ?_ known
      intro same left right
      subst same
      -- `ADD VF, Vy` ends with the carry, which is the sum only where `Plain` says so.
      by_cases flags : x = 15#4
      · subst flags
        exact plain.sum y rfl left right
      · exact result rfl (if_neg flags)
    | _ => exact forgotten rfl known
  | rnd z kk => exact forgotten rfl known
  | ldDelay z => exact forgotten rfl known
  | ldKey z => exact forgotten rfl known
  | restore z => exact forgotten rfl known
  | _ => exact kept nofun known

/-- What `ADD I` makes of a base: dynamic bases stay, and unknown offsets make them. -/
theorem addToI_cases {i value : Option Int} {v : Int} (known : addToI i value = some v) :
    v < 0 ∨ ∃ base n, i = some base ∧ value = some n ∧ -1 ≤ base ∧ v = base + n := by
  unfold addToI at known
  split at known
  · cases known
  · rename_i base
    split at known
    · rename_i dynamic
      cases known
      have low : v ≤ -2 := of_decide_eq_true dynamic
      exact .inl (by omega)
    · rename_i notDynamic
      have low : -1 ≤ base := by
        have atLeast : ¬ base ≤ -2 := fun low => notDynamic (decide_eq_true low)
        exact Int.not_lt.mp fun low => atLeast (by omega)
      split at known
      · cases known
        left
        unfold dynamicBase
        omega
      · rename_i n
        cases known
        exact .inr ⟨base, n, rfl, rfl, low, rfl⟩

theorem after_i {σ : Constants} {i : Insn} (notLoad : ∀ nnn, i ≠ .ldI nnn)
    (notAdd : ∀ x, i ≠ .addI x) (notFont : ∀ x, i ≠ .ldF x) (vm : VM) :
    (σ.after i).i = σ.i ∧ i.addrAfter vm = vm.addr := by
  cases i with
  | ldI nnn => exact absurd rfl (notLoad nnn)
  | addI x => exact absurd rfl (notAdd x)
  | ldF x => exact absurd rfl (notFont x)
  | alu o x y => cases o <;> exact ⟨rfl, rfl⟩
  | _ => exact ⟨rfl, rfl⟩

theorem after_describes {σ : Constants} {op : Word} {i : Insn} {s t : State E}
    (describes : Describes σ s.vm) (executed : i.exec P op s = (0#32, t))
    (plain : Plain σ i s.vm t.vm) : Describes (σ.after i) t.vm := by
  have addr : t.vm.addr = i.addrAfter s.vm := by
    have after : t = (i.exec P op s).2 := congrArg Prod.snd executed.symm
    rw [after]
    exact exec_addr P op i s
  refine ⟨after_regs describes executed plain, ?_⟩
  by_cases load : ∃ nnn, i = .ldI nnn
  · obtain ⟨nnn, rfl⟩ := load
    intro v known _
    cases known
    rw [addr, Insn.addrAfter, BitVec.toNat_setWidth, Nat.mod_eq_of_lt (by omega)]
  by_cases digit : ∃ x, i = .ldF x
  · obtain ⟨x, rfl⟩ := digit
    intro v known positive
    cases known
    exact absurd positive (by decide)
  by_cases added : ∃ x, i = .addI x
  · obtain ⟨x, rfl⟩ := added
    intro v known positive
    obtain dynamic | ⟨base, n, atI, atReg, low, rfl⟩ := addToI_cases known
    · omega
    have value := describes.regs x n atReg
    obtain rfl | low := eq_or_lt_of_le low
    · -- a digit stays a digit
      have zero := plain.digit x rfl atI n atReg
      omega
    · have here := describes.addr base atI (by omega)
      have room := plain.word x rfl base atI (by omega) (atReg ▸ Option.some_ne_none n)
      rw [addr, Insn.addrAfter, BitVec.toNat_add, BitVec.toNat_setWidth]
      omega
  · obtain ⟨sameI, sameAddr⟩ := @after_i σ i (fun nnn same => load ⟨nnn, same⟩)
      (fun x same => added ⟨x, same⟩) (fun x same => digit ⟨x, same⟩) s.vm
    rw [addr, sameAddr, sameI]
    exact describes.addr

end

end ChipEight.Opt
