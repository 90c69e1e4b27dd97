import ChipEight.Opt.Program

/-! `transfer` on the instruction a statement stands for. -/

set_option autoImplicit false

namespace ChipEight.Opt

open Asm (Token Symbol Mnemonic Means Ascii startsWithV reg wordI wordDT wordST wordF wordB wordK
  wordMemory)

/-! ## Registers -/

/-- What `analyze` sees in the name of a register. -/
structure Names (U : Unicode) (a : Token) (x : Reg) : Prop where
  starts : startsWithV a = true
  valid : isRegister a = true
  index : registerIndex U a = some x.toFin
  other : ∀ w, startsWithV w = false → (a == w) = false

theorem registerIndex_char (U : Unicode) {c : Char} (small : c.toNat < 128) {d : Nat}
    (sign : c ≠ '-' ∧ c ≠ '+')
    (digit : (if Asm.isdigit c then some (c.toNat - '0'.toNat) else Asm.digitValue c) = some d)
    (bound : d < 16) : registerIndex U ['V', c] = some ⟨d, bound⟩ := by
  have value : Opt.digit U 16 c = some d := by
    unfold Opt.digit
    rw [U.decimalAscii c small]
    cases isDigit : Asm.isdigit c with
    | true =>
      rw [isDigit] at digit
      cases digit
      exact Option.filter_some_pos (decide_eq_true bound)
    | false =>
      rw [isDigit] at digit
      simp only [Bool.false_eq_true, if_false] at digit ⊢
      rw [digit]
      exact Option.filter_some_pos (decide_eq_true bound)
  have number : int U 16 [c] = some (d : Int) := by
    -- One character has no `0x` in front of it.
    have plain : dropPrefix 16 [c] = [c] := by
      unfold dropPrefix
      dsimp only
      split
      case h_5 => rfl
      all_goals
        rename_i same
        cases same
    unfold int
    split
    · rename_i same
      exact absurd (List.cons.inj same).1 sign.1
    · rename_i same
      exact absurd (List.cons.inj same).1 sign.2
    · rw [plain]
      simp only [digits, value, Option.bind_some, digitsFrom, Option.map_some]
      rfl
  unfold registerIndex
  simp only [number, Option.bind_some, Int.toNat_natCast]
  rw [dif_pos bound]

theorem reg_char {c : Char} {x : Reg} (known : reg ['V', c] = .ok x) :
    ∃ n : Nat, c = Char.ofNat n ∧ (48 ≤ n ∧ n < 58 ∨ 65 ≤ n ∧ n < 71) := by
  refine ⟨c.toNat, (Char.ofNat_toNat c).symm, ?_⟩
  unfold reg at known
  simp only [Asm.isdigit, Asm.between, Char.reduceToNat, Bool.and_eq_true, decide_eq_true_eq]
    at known
  split at known
  · omega
  split at known
  · omega
  · cases known

theorem names_reg (U : Unicode) {a : Token} {x : Reg} (known : reg a = .ok x) : Names U a x := by
  have shape : ∃ c, a = ['V', c] := by
    unfold reg at known
    split at known
    · exact ⟨_, rfl⟩
    · cases known
  obtain ⟨c, rfl⟩ := shape
  have other (w : Token) (no : startsWithV w = false) : (['V', c] == w) = false := by
    apply beq_false_of_ne
    rintro rfl
    cases no
  obtain ⟨n, rfl, range⟩ := reg_char known
  have read : isRegister ['V', Char.ofNat n] = true ∧
      registerIndex U ['V', Char.ofNat n] = some x.toFin := by
    clear other
    obtain ⟨low, high⟩ | ⟨low, high⟩ := range
    · interval_cases n
      all_goals
        obtain rfl := Except.ok.inj known
        exact ⟨by decide, registerIndex_char U (by decide) (by decide) rfl (by decide)⟩
    · interval_cases n
      all_goals
        obtain rfl := Except.ok.inj known
        exact ⟨by decide, registerIndex_char U (by decide) (by decide) rfl (by decide)⟩
  exact ⟨rfl, read.1, read.2, other⟩

/-! ## Instructions -/

/-- The sum `ADD Vx` records. -/
def addValues (a b : Option Int) : Option Int :=
  match a, b with
  | some m, some n => some ((m + n) % 256)
  | _, _ => none

def Constants.withI (σ : Constants) (i : Option Int) : Constants := { σ with i := i }

/-- What `analyze` takes an instruction to do. -/
def Constants.after (σ : Constants) : Insn → Constants
  | .ld x kk => σ.setReg x.toFin (some kk.toNat)
  | .add x kk => σ.setReg x.toFin (addValues (σ.regs x.toFin) (some kk.toNat))
  | .alu .move x y => σ.setReg x.toFin (σ.regs y.toFin)
  | .alu .add x y => σ.setReg x.toFin (addValues (σ.regs x.toFin) (σ.regs y.toFin))
  | .alu _ x _ => σ.setReg x.toFin none
  | .ldI nnn => σ.withI (some nnn.toNat)
  | .rnd x _ => σ.setReg x.toFin none
  | .ldDelay x => σ.setReg x.toFin none
  | .ldKey x => σ.setReg x.toFin none
  | .restore x => σ.setReg x.toFin none
  | .addI x => σ.withI (addToI σ.i (σ.regs x.toFin))
  | .ldF _ => σ.withI (some externalI)
  | _ => σ

section
variable {U : Unicode} {labels : Labels}

/-- The word a register is loaded from is no label. -/
def Reserved (U : Unicode) (labels : Labels) (args : List Token) : Prop :=
  ∀ r ∈ Asm.loadForms, ∀ a, args = [a, r.1] → resolve U labels r.1 = none

theorem transferLoad_reg {a b : Token} {x : Reg} {v : Option Int} {σ : Constants}
    (first : reg a = .ok x) (second : operandValue U labels σ b = some v) :
    transferLoad U labels a b σ = some (σ.setReg x.toFin v, []) := by
  have names := names_reg U first
  simp only [transferLoad, names.other wordI (by decide), names.valid, Bool.false_eq_true, if_false,
    if_true, names.index, second, Option.bind_eq_bind, Option.bind_some]
  rfl

theorem operandValue_reg {b : Token} {y : Reg} (known : reg b = .ok y) (σ : Constants) :
    operandValue U labels σ b = some (σ.regs y.toFin) := by
  have names := names_reg U known
  simp only [operandValue, names.starts, if_true, names.index, Option.map_some]

theorem operandValue_other {b : Token} (other : startsWithV b = false) (σ : Constants) :
    operandValue U labels σ b = some (resolve U labels b) := by
  simp only [operandValue, other, Bool.false_eq_true, if_false]

theorem transferLoad_store {a b : Token} {f : Reg → Insn} {x : Reg} {σ : Constants}
    (form : (a, f) ∈ Asm.storeForms) (second : reg b = .ok x) :
    ∃ requests, transferLoad U labels a b σ = some (σ.after (f x), requests) := by
  have names := names_reg U second
  have notMemory := names.other wordMemory (by decide)
  simp only [Asm.storeForms, List.mem_cons, Prod.mk.injEq, List.not_mem_nil, or_false] at form
  obtain ⟨rfl, rfl⟩ | ⟨rfl, rfl⟩ | ⟨rfl, rfl⟩ | ⟨rfl, rfl⟩ | ⟨rfl, rfl⟩ := form
  all_goals
    simp only [transferLoad, names.starts, names.index, notMemory]
    exact ⟨_, rfl⟩

theorem transferAdd_reg {a b : Token} {x : Reg} {v : Option Int} {σ : Constants}
    (first : reg a = .ok x) (second : operandValue U labels σ b = some v) :
    transferAdd U labels a b σ =
      some (σ.setReg x.toFin (addValues (σ.regs x.toFin) v), []) := by
  have names := names_reg U first
  simp only [transferAdd, names.other wordI (by decide), names.starts, Bool.false_eq_true, if_false,
    if_true, names.index, second, Option.bind_eq_bind, Option.bind_some]
  rfl

theorem transfer_other {s : Statement} {m : Mnemonic} (op : s.op = some m.text)
    (other : m ∉ Mnemonic.ld :: .add :: clobbers) (σ : Constants) :
    ∃ requests, transfer U labels s σ = some (σ, requests) := by
  have notLoad : (some m.text == some Mnemonic.ld.text) = false := by
    cases m <;> first | rfl | exact absurd (by decide) other
  have notAdd : (some m.text == some Mnemonic.add.text) = false := by
    cases m <;> first | rfl | exact absurd (by decide) other
  have keeps : (clobbers.any fun m' => some m.text == some m'.text) = false := by
    cases m <;> first | rfl | exact absurd (by decide) other
  unfold transfer
  rw [op]
  simp only [notLoad, notAdd, keeps, Bool.false_and, Bool.false_eq_true, if_false]
  cases args : s.args with
  | nil => exact ⟨_, rfl⟩
  | cons a rest =>
    cases rest with
    | nil => exact ⟨_, rfl⟩
    | cons b rest =>
      cases rest with
      | nil => exact ⟨_, rfl⟩
      | cons c rest =>
        cases rest with
        | nil =>
          dsimp only
          split
          · exact ⟨_, rfl⟩
          · exact ⟨_, rfl⟩
        | cons d rest => exact ⟨_, rfl⟩

theorem transfer_clobber {s : Statement} {m : Mnemonic} (op : s.op = some m.text)
    (clobber : m ∈ clobbers) {a : Token} {rest : List Token} (args : s.args = a :: rest)
    (few : rest.length ≤ 1) {x : Reg} (first : reg a = .ok x) (σ : Constants) :
    transfer U labels s σ = some (σ.setReg x.toFin none, []) := by
  have names := names_reg U first
  have notLoad : (some m.text == some Mnemonic.ld.text) = false := by
    cases m <;> first | rfl | exact absurd clobber (by decide)
  have notAdd : (some m.text == some Mnemonic.add.text) = false := by
    cases m <;> first | rfl | exact absurd clobber (by decide)
  have clobbers' : (clobbers.any fun m' => some m.text == some m'.text) = true := by
    cases m <;> first | rfl | exact absurd clobber (by decide)
  unfold transfer
  rw [op, args]
  simp only [notLoad, notAdd, clobbers', names.starts, Bool.true_and, Bool.false_eq_true, if_false,
    if_true, names.index]
  match rest, few with
  | [], _ => rfl
  | [b], _ => rfl

theorem transfer_load {s : Statement} (op : s.op = some Mnemonic.ld.text) {a b : Token}
    (args : s.args = [a, b]) (σ : Constants) :
    transfer U labels s σ = transferLoad U labels a b σ := by
  unfold transfer
  rw [op, args]
  show (transferLoad U labels a b σ).bind _ = _
  cases transferLoad U labels a b σ with
  | none => rfl
  | some r => rfl

theorem transfer_add {s : Statement} (op : s.op = some Mnemonic.add.text) {a b : Token}
    (args : s.args = [a, b]) (σ : Constants) :
    transfer U labels s σ = transferAdd U labels a b σ := by
  unfold transfer
  rw [op, args]
  show (transferAdd U labels a b σ).bind _ = _
  cases transferAdd U labels a b σ with
  | none => rfl
  | some r => rfl

theorem transfer_stands {read : Asm.Reader} {s : Statement} {m : Mnemonic} {i : Insn}
    (op : s.op = some m.text) (means : Means read m s.args i)
    (reads : ∀ a ∈ s.args, ∀ n, read a = .ok n → resolve U labels a = some (n : Int))
    (reserved : Reserved U labels s.args) (σ : Constants) :
    ∃ requests, transfer U labels s σ = some (σ.after i, requests) := by
  generalize shape : s.args = args at means reads
  cases means
  case ldI b z target =>
    rw [transfer_load op shape]
    have value := reads b (by simp) _ target
    exact ⟨[], by simp [transferLoad, value, Constants.after, Constants.withI]⟩
  case store a b f x form second =>
    rw [transfer_load op shape]
    exact transferLoad_store form second
  case load a b f x form first =>
    rw [transfer_load op shape]
    -- `DT`, `K` and `[I]` are no numbers and no labels, so the value loaded is unknown.
    have nothing := reserved _ form a shape
    have loads : startsWithV b = false ∧ σ.after (f x) = σ.setReg x.toFin none := by
      simp only [Asm.loadForms, List.mem_cons, Prod.mk.injEq, List.not_mem_nil, or_false] at form
      obtain ⟨rfl, rfl⟩ | ⟨rfl, rfl⟩ | ⟨rfl, rfl⟩ := form <;> exact ⟨rfl, rfl⟩
    obtain ⟨other, after⟩ := loads
    rw [after]
    exact ⟨[], transferLoad_reg first ((operandValue_other other σ).trans (congrArg some nothing))⟩
  case move a b x y first second =>
    rw [transfer_load op shape]
    exact ⟨[], transferLoad_reg first (operandValue_reg second σ)⟩
  case ld a b x kk first second other =>
    rw [transfer_load op shape]
    have value := reads b (by simp) _ second
    exact ⟨[], transferLoad_reg first ((operandValue_other other σ).trans (congrArg some value))⟩
  case addI b x second =>
    rw [transfer_add op shape]
    have names := names_reg U second
    refine ⟨[], ?_⟩
    simp [transferAdd, names.starts, names.index, Constants.after, Constants.withI]
  case addReg a b x y first second =>
    rw [transfer_add op shape]
    exact ⟨[], transferAdd_reg first (operandValue_reg second σ)⟩
  case add a b x kk first second other =>
    rw [transfer_add op shape]
    have value := reads b (by simp) _ second
    exact ⟨[], transferAdd_reg first ((operandValue_other other σ).trans (congrArg some value))⟩
  case alu o a b x y first second form =>
    have clobber : m ∈ clobbers ∧ σ.after (.alu o x y) = σ.setReg x.toFin none := by
      simp only [Asm.aluForms, List.mem_cons, Prod.mk.injEq, List.not_mem_nil, or_false] at form
      obtain ⟨rfl, rfl⟩ | ⟨rfl, rfl⟩ | ⟨rfl, rfl⟩ | ⟨rfl, rfl⟩ | ⟨rfl, rfl⟩ | ⟨rfl, rfl⟩ |
        ⟨rfl, rfl⟩ := form <;> exact ⟨by decide, rfl⟩
    rw [clobber.2]
    exact ⟨[], transfer_clobber op clobber.1 shape (by simp) first σ⟩
  case shift o a x first form =>
    have clobber : m ∈ clobbers ∧ σ.after (.alu o x 0#4) = σ.setReg x.toFin none := by
      simp only [Asm.shiftForms, List.mem_cons, Prod.mk.injEq, List.not_mem_nil, or_false] at form
      obtain ⟨rfl, rfl⟩ | ⟨rfl, rfl⟩ := form <;> exact ⟨by decide, rfl⟩
    rw [clobber.2]
    exact ⟨[], transfer_clobber op clobber.1 shape (by simp) first σ⟩
  case rnd a b x kk first second =>
    exact ⟨[], transfer_clobber op (by decide) shape (by simp) first σ⟩
  all_goals exact transfer_other op (by decide) σ

/-! ## Control -/

/-- Where an instruction passes control in a context. -/
def contextsAfter (pc : Nat) (returns : List Nat) : Insn → List Context
  | .jp nnn => [(nnn.toNat, returns)]
  | .call nnn => if returns.length ≥ maxReturns then [] else [(nnn.toNat, returns ++ [pc + 2])]
  | .ret => (returns.getLast?.map fun dest => (dest, returns.dropLast)).toList
  | .skip _ => [(pc + 2, returns), (pc + 4, returns)]
  | .skipKey _ _ => [(pc + 2, returns), (pc + 4, returns)]
  | .jpV0 _ => []
  | _ => [(pc + 2, returns)]

theorem transitions_skip {s : Statement} {m : Mnemonic} (op : s.op = some m.text)
    (skip : m ∈ [Mnemonic.se, .sne, .skp, .sknp]) (returns : List Nat) :
    (transitions U labels s returns).1 =
      [(((s.pc + 2 : Nat) : Int), returns), (((s.pc + 4 : Nat) : Int), returns)] := by
  simp only [List.mem_cons, List.not_mem_nil, or_false] at skip
  unfold transitions successors isSkip
  rw [op]
  have four : (s.pc : Int) + 2 + 2 = ((s.pc + 4 : Nat) : Int) := by omega
  obtain rfl | rfl | rfl | rfl := skip
  all_goals
    show [((s.pc : Int) + 2, returns), ((s.pc : Int) + 2 + 2, returns)] = _
    rw [four]
    rfl

theorem transitions_fall {s : Statement} {m : Mnemonic} (op : s.op = some m.text)
    (plain : m ∉ [Mnemonic.ret, .jp, .call, .se, .sne, .skp, .sknp]) (returns : List Nat) :
    (transitions U labels s returns).1 = [(((s.pc + 2 : Nat) : Int), returns)] := by
  unfold transitions successors isSkip
  rw [op]
  cases m <;> first | rfl | exact absurd (by decide) plain

theorem transitions_stands {read : Asm.Reader} {s : Statement} {m : Mnemonic} {i : Insn}
    (op : s.op = some m.text) (means : Means read m s.args i)
    (reads : ∀ a ∈ s.args, ∀ n, read a = .ok n → resolve U labels a = some (n : Int))
    (returns : List Nat) :
    (transitions U labels s returns).1 =
      (contextsAfter s.pc returns i).map fun c => ((c.1 : Int), c.2) := by
  -- The operation decides; an operand is read for a target only.
  generalize shape : s.args = args at means reads
  cases means
  case jp a z known =>
    have dest : target U labels s = some (z.toNat : Int) := by
      rw [target, shape]
      exact reads a (by simp) _ known
    unfold transitions successors
    rw [op, shape, dest]
    rfl
  case jpV0 a z known =>
    unfold transitions successors
    rw [op, shape]
    rfl
  case call a z known =>
    have dest : target U labels s = some (z.toNat : Int) := by
      rw [target, shape]
      exact reads a (by simp) _ known
    unfold transitions contextsAfter
    rw [op, dest]
    dsimp only
    simp only [beq_self_eq_true, if_true]
    split <;> rfl
  case ret =>
    unfold transitions contextsAfter
    rw [op]
    dsimp only
    simp only [beq_self_eq_true, if_true]
    cases returns.getLast? <;> rfl
  case store a b f x form second =>
    simp only [Asm.storeForms, List.mem_cons, Prod.mk.injEq, List.not_mem_nil, or_false] at form
    obtain ⟨-, rfl⟩ | ⟨-, rfl⟩ | ⟨-, rfl⟩ | ⟨-, rfl⟩ | ⟨-, rfl⟩ := form <;>
      exact transitions_fall op (by decide) returns
  case load a b f x form first =>
    simp only [Asm.loadForms, List.mem_cons, Prod.mk.injEq, List.not_mem_nil, or_false] at form
    obtain ⟨-, rfl⟩ | ⟨-, rfl⟩ | ⟨-, rfl⟩ := form <;>
      exact transitions_fall op (by decide) returns
  case alu o a b x y first second form =>
    refine transitions_fall op ?_ returns
    simp only [Asm.aluForms, List.mem_cons, Prod.mk.injEq, List.not_mem_nil, or_false] at form
    obtain ⟨rfl, -⟩ | ⟨rfl, -⟩ | ⟨rfl, -⟩ | ⟨rfl, -⟩ | ⟨rfl, -⟩ | ⟨rfl, -⟩ | ⟨rfl, -⟩ := form <;>
      decide
  case shift o a x first form =>
    refine transitions_fall op ?_ returns
    simp only [Asm.shiftForms, List.mem_cons, Prod.mk.injEq, List.not_mem_nil, or_false] at form
    obtain ⟨rfl, -⟩ | ⟨rfl, -⟩ := form <;> decide
  case seReg | seByte | sneReg | sneByte | skp | sknp =>
    exact transitions_skip op (by decide) returns
  all_goals exact transitions_fall op (by decide) returns

end

end ChipEight.Opt
