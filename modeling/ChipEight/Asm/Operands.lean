import ChipEight.Asm.Readings
import ChipEight.Machine.Events

/-! A statement under two readings of its operands.

Only the instructions that take an address can name a label, and the label is their last
operand. Any other instruction is the same wherever the labels are.
-/

set_option autoImplicit false

namespace ChipEight

namespace Asm

variable {read read' : Reader}

/-- A statement stands for the same where as much is read alike: where it takes no address,
only numbers of at most a byte. -/
theorem Means.mono {m : Mnemonic} {args : List Token} {i : Insn} (means : Means read m args i)
    (more : ∀ a ∈ args, ∀ n, (i.address = none → n < 256) → read a = .ok n → read' a = .ok n) :
    Means read' m args i := by
  have address {a : Token} {z : Addr} (inside : a ∈ args) (some : i.address ≠ none)
      (target : read a = .ok z.toNat) : read' a = .ok z.toNat :=
    more a inside _ (fun none => absurd none some) target
  have byte {a : Token} {kk : Byte} (inside : a ∈ args) (known : read a = .ok kk.toNat) :
      read' a = .ok kk.toNat := more a inside _ (fun _ => kk.isLt) known
  cases means with
  | cls => exact .cls
  | ret => exact .ret
  | jp target => exact .jp (address (by simp) nofun target)
  | jpV0 target => exact .jpV0 (address (by simp) nofun target)
  | call target => exact .call (address (by simp) nofun target)
  | seReg first second => exact .seReg first second
  | seByte first second => exact .seByte first (byte (by simp) second)
  | sneReg first second => exact .sneReg first second
  | sneByte first second => exact .sneByte first (byte (by simp) second)
  | ldI target => exact .ldI (address (by simp) nofun target)
  | store form second => exact .store form second
  | load form first => exact .load form first
  | move first second => exact .move first second
  | ld first second other => exact .ld first (byte (by simp) second) other
  | addI second => exact .addI second
  | addReg first second => exact .addReg first second
  | add first second other => exact .add first (byte (by simp) second) other
  | alu form first second => exact .alu form first second
  | shift form first => exact .shift form first
  | rnd first second => exact .rnd first (byte (by simp) second)
  | @drw _ _ _ _ _ n first second third =>
    exact .drw first second (more _ (by simp) _ (fun _ => by omega) third)
  | skp first => exact .skp first
  | sknp first => exact .sknp first

theorem address_none {i : Insn} (other : ∀ z, lastOperand i ≠ .address z) : i.address = none := by
  cases i with
  | jp z => exact absurd rfl (other z)
  | jpV0 z => exact absurd rfl (other z)
  | call z => exact absurd rfl (other z)
  | ldI z => exact absurd rfl (other z)
  | _ => rfl

/-! ## Words -/

/-- What is read as a number of at most a byte is a number, and no label. -/
def Plain (read : Reader) : Prop := ∀ a, ∀ n < 256, read a = .ok n → strtoul a = some n

theorem value_plain {symbols : List Symbol} (addresses : Addresses symbols) :
    Plain (value symbols true) := by
  intro a n small known
  unfold value at known
  split at known
  · rename_i number
    split at known
    · cases known
    · rw [number, Except.ok.inj known]
  · split at known
    · rename_i symbol found
      have large := (addresses symbol (List.mem_of_find?_eq_some found)).2
      have same := Except.ok.inj known
      omega
    · cases known

theorem Plain.other (plain : Plain read) {a w : Token} {n : Nat} (small : n < 256)
    (known : read a = .ok n) (word : strtoul w = none) : (a == w) = false := by
  apply beq_false_of_ne
  rintro rfl
  rw [plain a n small known] at word
  cases word

theorem Plain.startsWithV (plain : Plain read) {a : Token} {n : Nat} (small : n < 256)
    (known : read a = .ok n) : startsWithV a = false := by
  rw [← Bool.not_eq_true]
  intro begins
  have number := plain a n small known
  cases a with
  | nil => cases begins
  | cons c cs =>
    obtain rfl : c = 'V' := by simpa [Asm.startsWithV] using begins
    rw [strtoul_nameStart (by decide)] at number
    cases number

theorem startsWithV_of_reg {a : Token} {x : Reg} (known : reg a = .ok x) :
    startsWithV a = true := by
  unfold reg at known
  split at known
  · rfl
  · cases known

theorem immediate_of {w : Nat} {a : Token} {z : BitVec w} {max : Nat} {problem : Nat → Problem}
    (fits : 2 ^ w = max + 1) (target : read a = .ok z.toNat) :
    immediate read a max problem = .ok (z.setWidth 16) := by
  have bound := z.isLt
  refine bind_ok.mpr ⟨_, target, bind_ok.mpr ⟨(), range_ok.mpr (by omega), ?_⟩⟩
  exact congrArg Except.ok (BitVec.ofNat_toNat 16 z)

theorem address_of {a : Token} {z : Addr} (target : read a = .ok z.toNat) :
    address read a = .ok (z.setWidth 16) := immediate_of (by decide) target

theorem byte_of {a : Token} {kk : Byte} (target : read a = .ok kk.toNat) :
    byte read a = .ok (kk.setWidth 16) := immediate_of (by decide) target

theorem reg_other {a w : Token} {x : Reg} (known : reg a = .ok x) (other : startsWithV w = false) :
    (a == w) = false := by
  apply beq_false_of_ne
  rintro rfl
  rw [startsWithV_of_reg known] at other
  cases other

theorem loadWord_reg {a b : Token} {x : Reg} (first : reg a = .ok x) :
    loadWord read a b =
      if b == wordDT then .ok (0xf007#16 ||| atX x)
      else if b == wordK then .ok (0xf00a#16 ||| atX x)
      else if b == wordMemory then .ok (0xf065#16 ||| atX x)
      else if startsWithV b then reg b >>= fun y => .ok (0x8000#16 ||| atX x ||| atY y)
      else byte read b >>= fun z => .ok (0x6000#16 ||| atX x ||| z) := by
  have other (w : Token) (no : startsWithV w = false) := reg_other first no
  unfold loadWord
  simp only [other wordI rfl, other wordDT rfl, other wordST rfl, other wordF rfl, other wordB rfl,
    other wordMemory rfl, Bool.false_eq_true, if_false, first]
  rfl

theorem addWord_reg {a b : Token} {x : Reg} (first : reg a = .ok x) :
    addWord read a b =
      if startsWithV b then reg b >>= fun y => .ok (0x8004#16 ||| atX x ||| atY y)
      else byte read b >>= fun z => .ok (0x7000#16 ||| atX x ||| z) := by
  unfold addWord
  simp only [reg_other first (show startsWithV wordI = false from rfl), Bool.false_eq_true,
    if_false, first]
  rfl

theorem Means.word {m : Mnemonic} {args : List Token} {i : Insn} (plain : Plain read)
    (means : Means read m args i) : instruction read m.text args = .ok (encode i) := by
  -- One case for each form: the tests in front of it fail, its own one succeeds.
  cases means with
  | cls => rfl
  | ret => rfl
  | jp target => exact bind_ok.mpr ⟨_, address_of target, rfl⟩
  | jpV0 target => exact bind_ok.mpr ⟨_, address_of target, rfl⟩
  | call target => exact bind_ok.mpr ⟨_, address_of target, rfl⟩
  | ldI target => exact bind_ok.mpr ⟨_, address_of target, rfl⟩
  | seReg first second =>
    refine bind_ok.mpr ⟨_, first, ?_⟩
    rw [if_pos (startsWithV_of_reg second)]
    exact bind_ok.mpr ⟨_, second, rfl⟩
  | seByte first second =>
    refine bind_ok.mpr ⟨_, first, ?_⟩
    rw [plain.startsWithV (BitVec.isLt _) second, if_neg Bool.false_ne_true]
    exact bind_ok.mpr ⟨_, byte_of second, rfl⟩
  | sneReg first second =>
    refine bind_ok.mpr ⟨_, first, ?_⟩
    rw [if_pos (startsWithV_of_reg second)]
    exact bind_ok.mpr ⟨_, second, rfl⟩
  | sneByte first second =>
    refine bind_ok.mpr ⟨_, first, ?_⟩
    rw [plain.startsWithV (BitVec.isLt _) second, if_neg Bool.false_ne_true]
    exact bind_ok.mpr ⟨_, byte_of second, rfl⟩
  | store form second =>
    simp only [storeForms, List.mem_cons, Prod.mk.injEq, List.not_mem_nil, or_false] at form
    rcases form with ⟨rfl, rfl⟩ | ⟨rfl, rfl⟩ | ⟨rfl, rfl⟩ | ⟨rfl, rfl⟩ | ⟨rfl, rfl⟩ <;>
      exact bind_ok.mpr ⟨_, second, rfl⟩
  | load form first =>
    refine (loadWord_reg first).trans ?_
    simp only [loadForms, List.mem_cons, Prod.mk.injEq, List.not_mem_nil, or_false] at form
    rcases form with ⟨rfl, rfl⟩ | ⟨rfl, rfl⟩ | ⟨rfl, rfl⟩ <;> rfl
  | @move a b x y first second =>
    have other (w : Token) (no : startsWithV w = false) := reg_other second no
    refine (loadWord_reg first).trans ?_
    simp only [other wordDT rfl, other wordK rfl, other wordMemory rfl, Bool.false_eq_true,
      if_false, startsWithV_of_reg second, if_true]
    refine bind_ok.mpr ⟨_, second, congrArg Except.ok ?_⟩
    exact BitVec.or_zero.symm
  | @ld a b x kk first second other =>
    have word {w : Token} := @Plain.other read plain b w _ kk.isLt second
    refine (loadWord_reg first).trans ?_
    simp only [@word wordDT (by decide), @word wordK (by decide), @word wordMemory (by decide),
      other, Bool.false_eq_true, if_false]
    exact bind_ok.mpr ⟨_, byte_of second, rfl⟩
  | addI second => exact bind_ok.mpr ⟨_, second, rfl⟩
  | addReg first second =>
    refine (addWord_reg first).trans ?_
    rw [if_pos (startsWithV_of_reg second)]
    refine bind_ok.mpr ⟨_, second, congrArg Except.ok ?_⟩
    exact or_registers 0x8000#16 0x0004#16 _ _
  | add first second other =>
    refine (addWord_reg first).trans ?_
    rw [other, if_neg Bool.false_ne_true]
    exact bind_ok.mpr ⟨_, byte_of second, rfl⟩
  | alu form first second =>
    simp only [aluForms, List.mem_cons, Prod.mk.injEq, List.not_mem_nil, or_false] at form
    rcases form with ⟨rfl, rfl⟩ | ⟨rfl, rfl⟩ | ⟨rfl, rfl⟩ | ⟨rfl, rfl⟩ | ⟨rfl, rfl⟩ | ⟨rfl, rfl⟩ |
        ⟨rfl, rfl⟩ <;>
      exact bind_ok.mpr ⟨_, first, bind_ok.mpr ⟨_, second, rfl⟩⟩
  | shift form first =>
    simp only [shiftForms, List.mem_cons, Prod.mk.injEq, List.not_mem_nil, or_false] at form
    rcases form with ⟨rfl, rfl⟩ | ⟨rfl, rfl⟩ <;>
      exact bind_ok.mpr ⟨_, first, bind_ok.mpr ⟨0#4, rfl, rfl⟩⟩
  | rnd first second => exact bind_ok.mpr ⟨_, first, bind_ok.mpr ⟨_, byte_of second, rfl⟩⟩
  | drw first second third =>
    exact bind_ok.mpr ⟨_, first, bind_ok.mpr ⟨_, second, bind_ok.mpr ⟨_,
      immediate_of (by decide) third, rfl⟩⟩⟩
  | skp first => exact bind_ok.mpr ⟨_, first, rfl⟩
  | sknp first => exact bind_ok.mpr ⟨_, first, rfl⟩

theorem Means.unique {m : Mnemonic} {args : List Token} {i j : Insn} (plain : Plain read)
    (first : Means read m args i) (second : Means read m args j) : i = j :=
  encode_injective (Except.ok.inj ((first.word plain).symm.trans (second.word plain)))

theorem Addressed.other {y : Addr} {m : Mnemonic} {front : List Token} {i j : Insn} {a : Token}
    (addressed : Addressed y m front i) (means : Means read m (front ++ [a]) j) :
    ∃ z : Addr, read a = .ok z.toNat ∧ j = i.withAddress z := by
  cases addressed with
  | jp =>
    cases means with
    | jp target => exact ⟨_, target, rfl⟩
    | shift form _ => simp [shiftForms] at form
  | jpV0 =>
    cases means with
    | jpV0 target => exact ⟨_, target, rfl⟩
    | alu form _ _ => simp [aluForms] at form
  | call =>
    cases means with
    | call target => exact ⟨_, target, rfl⟩
    | shift form _ => simp [shiftForms] at form
  | ldI =>
    -- `I` is no register
    cases means with
    | ldI target => exact ⟨_, target, rfl⟩
    | store form _ => simp [storeForms, wordI, wordDT, wordST, wordF, wordB, wordMemory] at form
    | load _ first => cases first
    | move first _ => cases first
    | ld first _ _ => cases first
    | alu form _ _ => simp [aluForms] at form

end Asm

end ChipEight
