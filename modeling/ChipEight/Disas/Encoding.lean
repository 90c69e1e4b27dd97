import ChipEight.Asm.Meaning
import ChipEight.Disas.Lines

/-! The encoder of asm.c against the three decoders.

`encode` is the word the assembler makes of an instruction. `valid_opcode`, `disassemble`
and the interpreter all read it as that instruction.
-/

set_option autoImplicit false

namespace ChipEight.Disas

open Asm (Text Token Mnemonic Reader Means ByteFields RegisterFields encode aluNibble normalize
  readLine lineSize storeForms loadForms aluForms shiftForms wordBytes wordI wordDT wordST wordF
  wordB wordK wordMemory wordV0)

/-! ## The validity test -/

theorem valid_class {op : Word} {c : Nat} (cls : opClass op = c)
    (free : c ∈ [1, 2, 3, 4, 6, 7, 0xa, 0xb, 0xc, 0xd]) : validOpcode op = true := by
  simp only [List.mem_cons, List.not_mem_nil, or_false] at free
  unfold validOpcode
  split
  · rfl
  · rw [cls]
    obtain rfl | rfl | rfl | rfl | rfl | rfl | rfl | rfl | rfl | rfl := free
    all_goals rfl

theorem valid_registers {op : Word} {c : Nat} {x y : Reg} (fields : RegisterFields op c x y 0#4)
    (skip : c ∈ [5, 9]) : validOpcode op = true := by
  have low : opLow4 op = 0 := by
    rw [Asm.opLow4_eq, fields.nibble]
    rfl
  simp only [List.mem_cons, List.not_mem_nil, or_false] at skip
  unfold validOpcode
  split
  · rfl
  · rw [fields.cls, low]
    obtain rfl | rfl := skip
    all_goals rfl

theorem valid_alu {op : Word} {x y : Reg} {o : AluOp}
    (fields : RegisterFields op 8 x y (aluNibble o)) : validOpcode op = true := by
  have low : opLow4 op = (aluNibble o).toNat := by rw [Asm.opLow4_eq, fields.nibble]
  unfold validOpcode
  split
  · rfl
  · rw [fields.cls, low]
    cases o <;> rfl

theorem valid_byte {op : Word} {c : Nat} {x : Reg} {kk : Byte} (fields : ByteFields op c x kk)
    (selects : (c, kk) ∈ [(0xe, 0x9e#8), (0xe, 0xa1#8), (0xf, 0x07#8), (0xf, 0x0a#8), (0xf, 0x15#8),
      (0xf, 0x18#8), (0xf, 0x1e#8), (0xf, 0x29#8), (0xf, 0x33#8), (0xf, 0x55#8), (0xf, 0x65#8)]) :
    validOpcode op = true := by
  have low : opLow8 op = kk.toNat := by rw [Asm.opLow8_eq, fields.byte]
  simp only [List.mem_cons, Prod.mk.injEq, List.not_mem_nil, or_false] at selects
  unfold validOpcode
  split
  · rfl
  · rw [fields.cls, low]
    obtain ⟨rfl, rfl⟩ | ⟨rfl, rfl⟩ | ⟨rfl, rfl⟩ | ⟨rfl, rfl⟩ | ⟨rfl, rfl⟩ | ⟨rfl, rfl⟩ |
      ⟨rfl, rfl⟩ | ⟨rfl, rfl⟩ | ⟨rfl, rfl⟩ | ⟨rfl, rfl⟩ | ⟨rfl, rfl⟩ := selects
    all_goals rfl

theorem valid_encode (i : Insn) : validOpcode (encode i) = true := by
  cases i with
  | cls => rfl
  | ret => rfl
  | jp z => exact valid_class (Asm.classed_class 1#4 z) (by decide)
  | call z => exact valid_class (Asm.classed_class 2#4 z) (by decide)
  | ldI z => exact valid_class (Asm.classed_class 0xa#4 z) (by decide)
  | jpV0 z => exact valid_class (Asm.classed_class 0xb#4 z) (by decide)
  | skip c =>
    cases c with
    | eqImm x kk => exact valid_class (Asm.byteFields 3#4 x kk).cls (by decide)
    | neImm x kk => exact valid_class (Asm.byteFields 4#4 x kk).cls (by decide)
    | eqReg x y => exact valid_registers (Asm.registerFields_zero 5#4 x y) (by decide)
    | neReg x y => exact valid_registers (Asm.registerFields_zero 9#4 x y) (by decide)
  | ld x kk => exact valid_class (Asm.byteFields 6#4 x kk).cls (by decide)
  | add x kk => exact valid_class (Asm.byteFields 7#4 x kk).cls (by decide)
  | alu o x y => exact valid_alu (Asm.registerFields 8#4 x y (aluNibble o))
  | rnd x kk => exact valid_class (Asm.byteFields 0xc#4 x kk).cls (by decide)
  | drw x y n => exact valid_class (Asm.registerFields 0xd#4 x y n).cls (by decide)
  | skipKey x up =>
    cases up with
    | false => exact valid_byte (Asm.fixedFields 0xe#4 x 0x9e#8) (by decide)
    | true => exact valid_byte (Asm.fixedFields 0xe#4 x 0xa1#8) (by decide)
  | ldDelay x => exact valid_byte (Asm.fixedFields 0xf#4 x 0x07#8) (by decide)
  | ldKey x => exact valid_byte (Asm.fixedFields 0xf#4 x 0x0a#8) (by decide)
  | setDelay x => exact valid_byte (Asm.fixedFields 0xf#4 x 0x15#8) (by decide)
  | setSound x => exact valid_byte (Asm.fixedFields 0xf#4 x 0x18#8) (by decide)
  | addI x => exact valid_byte (Asm.fixedFields 0xf#4 x 0x1e#8) (by decide)
  | ldF x => exact valid_byte (Asm.fixedFields 0xf#4 x 0x29#8) (by decide)
  | bcd x => exact valid_byte (Asm.fixedFields 0xf#4 x 0x33#8) (by decide)
  | save x => exact valid_byte (Asm.fixedFields 0xf#4 x 0x55#8) (by decide)
  | restore x => exact valid_byte (Asm.fixedFields 0xf#4 x 0x65#8) (by decide)

/-! ## The printer -/

def aluMnemonic : AluOp → Mnemonic
  | .move => .ld
  | .or => .or
  | .and => .and
  | .xor => .xor
  | .add => .add
  | .sub => .sub
  | .shr => .shr
  | .subn => .subn
  | .shl => .shl

/-- The line of an instruction. -/
def lineOf (m : Map) : Insn → Line
  | .cls => plainLine .cls []
  | .ret => plainLine .ret []
  | .jp z => plainLine .jp [targetOperand m z]
  | .call z => plainLine .call [targetOperand m z]
  | .skip (.eqImm x kk) => plainLine .se [.reg x, .byte kk]
  | .skip (.neImm x kk) => plainLine .sne [.reg x, .byte kk]
  | .skip (.eqReg x y) => plainLine .se [.reg x, .reg y]
  | .skip (.neReg x y) => plainLine .sne [.reg x, .reg y]
  | .ld x kk => plainLine .ld [.reg x, .byte kk]
  | .add x kk => plainLine .add [.reg x, .byte kk]
  | .alu o x y => plainLine (aluMnemonic o) [.reg x, .reg y]
  | .ldI z => plainLine .ld [.plain wordI, targetOperand m z]
  | .jpV0 z => ⟨Mnemonic.jp.text, [.plain wordV0, .address z], jumpWarning⟩
  | .rnd x kk => plainLine .rnd [.reg x, .byte kk]
  | .drw x y n => plainLine .drw [.reg x, .reg y, .nibble n]
  | .skipKey x false => plainLine .skp [.reg x]
  | .skipKey x true => plainLine .sknp [.reg x]
  | .ldDelay x => plainLine .ld [.reg x, .plain wordDT]
  | .ldKey x => plainLine .ld [.reg x, .plain wordK]
  | .setDelay x => plainLine .ld [.plain wordDT, .reg x]
  | .setSound x => plainLine .ld [.plain wordST, .reg x]
  | .addI x => plainLine .add [.plain wordI, .reg x]
  | .ldF x => plainLine .ld [.plain wordF, .reg x]
  | .bcd x => plainLine .ld [.plain wordB, .reg x]
  | .save x => plainLine .ld [.plain wordMemory, .reg x]
  | .restore x => plainLine .ld [.reg x, .plain wordMemory]

section
variable (m : Map)

theorem print_address {op : Word} {c : Nat} {z : Addr} {l : Line} (cls : opClass op = c)
    (value : immediate12 op = z)
    (form : (c, l) ∈ [(1, lineOf m (.jp z)), (2, lineOf m (.call z)), (0xa, lineOf m (.ldI z)),
      (0xb, lineOf m (.jpV0 z))]) : disassemble m op = l := by
  simp only [List.mem_cons, Prod.mk.injEq, List.not_mem_nil, or_false] at form
  obtain ⟨rfl, rfl⟩ | ⟨rfl, rfl⟩ | ⟨rfl, rfl⟩ | ⟨rfl, rfl⟩ := form
  all_goals
    obtain ⟨clear, ret⟩ := not_miscellaneous cls
    simp only [disassemble, clear, ret, cls, value, Bool.false_eq_true, if_false]
    rfl

theorem print_byte {op : Word} {c : Nat} {x : Reg} {kk : Byte} {l : Line}
    (fields : ByteFields op c x kk)
    (form : (c, l) ∈ [(3, lineOf m (.skip (.eqImm x kk))), (4, lineOf m (.skip (.neImm x kk))),
      (6, lineOf m (.ld x kk)), (7, lineOf m (.add x kk)), (0xc, lineOf m (.rnd x kk))]) :
    disassemble m op = l := by
  obtain ⟨cls, first, byte⟩ := fields
  simp only [List.mem_cons, Prod.mk.injEq, List.not_mem_nil, or_false] at form
  obtain ⟨rfl, rfl⟩ | ⟨rfl, rfl⟩ | ⟨rfl, rfl⟩ | ⟨rfl, rfl⟩ | ⟨rfl, rfl⟩ := form
  all_goals
    obtain ⟨clear, ret⟩ := not_miscellaneous cls
    simp only [disassemble, clear, ret, cls, first, byte, Bool.false_eq_true, if_false]
    rfl

theorem print_key {op : Word} {x : Reg} {kk : Byte} {up : Bool} (fields : ByteFields op 0xe x kk)
    (form : (kk, up) ∈ [(0x9e#8, false), (0xa1#8, true)]) :
    disassemble m op = lineOf m (.skipKey x up) := by
  obtain ⟨cls, first, byte⟩ := fields
  obtain ⟨clear, ret⟩ := not_miscellaneous cls
  have low := Asm.opLow8_eq op
  rw [byte] at low
  simp only [List.mem_cons, Prod.mk.injEq, List.not_mem_nil, or_false] at form
  obtain ⟨rfl, rfl⟩ | ⟨rfl, rfl⟩ := form
  all_goals
    simp only [disassemble, clear, ret, cls, first, low, Bool.false_eq_true, if_false]
    rfl

theorem print_misc {op : Word} {x : Reg} {kk : Byte} {i : Insn} (fields : ByteFields op 0xf x kk)
    (form : (kk, i) ∈ [(0x07#8, .ldDelay x), (0x0a#8, .ldKey x), (0x15#8, .setDelay x),
      (0x18#8, .setSound x), (0x1e#8, .addI x), (0x29#8, .ldF x), (0x33#8, .bcd x),
      (0x55#8, .save x), (0x65#8, .restore x)]) : disassemble m op = lineOf m i := by
  obtain ⟨cls, first, byte⟩ := fields
  obtain ⟨clear, ret⟩ := not_miscellaneous cls
  have low := Asm.opLow8_eq op
  rw [byte] at low
  simp only [List.mem_cons, Prod.mk.injEq, List.not_mem_nil, or_false] at form
  obtain ⟨rfl, rfl⟩ | ⟨rfl, rfl⟩ | ⟨rfl, rfl⟩ | ⟨rfl, rfl⟩ | ⟨rfl, rfl⟩ | ⟨rfl, rfl⟩ |
    ⟨rfl, rfl⟩ | ⟨rfl, rfl⟩ | ⟨rfl, rfl⟩ := form
  all_goals
    simp only [disassemble, clear, ret, cls, disassembleF, first, low, Bool.false_eq_true, if_false]
    rfl

theorem print_registers {op : Word} {c : Nat} {x y n : Reg} {l : Line}
    (fields : RegisterFields op c x y n)
    (form : (c, n, l) ∈ [(5, 0#4, lineOf m (.skip (.eqReg x y))),
      (9, 0#4, lineOf m (.skip (.neReg x y))), (0xd, n, lineOf m (.drw x y n))]) :
    disassemble m op = l := by
  obtain ⟨cls, first, second, nibble⟩ := fields
  have low := Asm.opLow4_eq op
  rw [nibble] at low
  simp only [List.mem_cons, Prod.mk.injEq, List.not_mem_nil, or_false] at form
  obtain ⟨rfl, rfl, rfl⟩ | ⟨rfl, rfl, rfl⟩ | ⟨rfl, -, rfl⟩ := form
  all_goals
    obtain ⟨clear, ret⟩ := not_miscellaneous cls
    simp only [disassemble, clear, ret, cls, first, second, nibble, low, Bool.false_eq_true,
      if_false]
    rfl

theorem print_alu {op : Word} {x y : Reg} {o : AluOp}
    (fields : RegisterFields op 8 x y (aluNibble o)) :
    disassemble m op = lineOf m (.alu o x y) := by
  obtain ⟨cls, first, second, nibble⟩ := fields
  obtain ⟨clear, ret⟩ := not_miscellaneous cls
  have low := Asm.opLow4_eq op
  rw [nibble] at low
  simp only [disassemble, clear, ret, cls, disassembleAlu, first, second, low, Bool.false_eq_true,
    if_false]
  cases o <;> rfl

theorem disassemble_encode (i : Insn) : disassemble m (encode i) = lineOf m i := by
  cases i with
  | cls => rfl
  | ret => rfl
  | jp z => exact print_address m (Asm.classed_class 1#4 z) (Asm.classed_address 1#4 z) (by simp)
  | call z => exact print_address m (Asm.classed_class 2#4 z) (Asm.classed_address 2#4 z) (by simp)
  | ldI z =>
    exact print_address m (Asm.classed_class 0xa#4 z) (Asm.classed_address 0xa#4 z) (by simp)
  | jpV0 z =>
    exact print_address m (Asm.classed_class 0xb#4 z) (Asm.classed_address 0xb#4 z) (by simp)
  | skip c =>
    cases c with
    | eqImm x kk => exact print_byte m (Asm.byteFields 3#4 x kk) (by simp)
    | neImm x kk => exact print_byte m (Asm.byteFields 4#4 x kk) (by simp)
    | eqReg x y => exact print_registers m (Asm.registerFields_zero 5#4 x y) (by simp)
    | neReg x y => exact print_registers m (Asm.registerFields_zero 9#4 x y) (by simp)
  | ld x kk => exact print_byte m (Asm.byteFields 6#4 x kk) (by simp)
  | add x kk => exact print_byte m (Asm.byteFields 7#4 x kk) (by simp)
  | alu o x y => exact print_alu m (Asm.registerFields 8#4 x y (aluNibble o))
  | rnd x kk => exact print_byte m (Asm.byteFields 0xc#4 x kk) (by simp)
  | drw x y n => exact print_registers m (Asm.registerFields 0xd#4 x y n) (by simp)
  | skipKey x up =>
    cases up with
    | false => exact print_key m (Asm.fixedFields 0xe#4 x 0x9e#8) (by simp)
    | true => exact print_key m (Asm.fixedFields 0xe#4 x 0xa1#8) (by simp)
  | ldDelay x => exact print_misc m (Asm.fixedFields 0xf#4 x 0x07#8) (by simp)
  | ldKey x => exact print_misc m (Asm.fixedFields 0xf#4 x 0x0a#8) (by simp)
  | setDelay x => exact print_misc m (Asm.fixedFields 0xf#4 x 0x15#8) (by simp)
  | setSound x => exact print_misc m (Asm.fixedFields 0xf#4 x 0x18#8) (by simp)
  | addI x => exact print_misc m (Asm.fixedFields 0xf#4 x 0x1e#8) (by simp)
  | ldF x => exact print_misc m (Asm.fixedFields 0xf#4 x 0x29#8) (by simp)
  | bcd x => exact print_misc m (Asm.fixedFields 0xf#4 x 0x33#8) (by simp)
  | save x => exact print_misc m (Asm.fixedFields 0xf#4 x 0x55#8) (by simp)
  | restore x => exact print_misc m (Asm.fixedFields 0xf#4 x 0x65#8) (by simp)

end

/-! ## Operands -/

/-- A printed operand is the one that was written: the same word, or a number or label of
the same value. -/
def SameOperand (m : Map) (read : Reader) (a b : Token) : Prop :=
  a = b ∨ ∃ n, read a = .ok n ∧
    (Asm.strtoul b = some n ∨ m.leader n = true ∧ b = labelName n)

/-- The operands of a statement, with the second one of a shift filled in. -/
def written (op : Token) (args : List Token) : List Token :=
  if (op == Mnemonic.shr.text || op == Mnemonic.shl.text) && args.length == 1 then args ++ [wordV0]
  else args

section
variable {m : Map} {read : Reader}

theorem same_reg {a : Token} {x : Reg} (known : Asm.reg a = .ok x) :
    SameOperand m read a (Operand.reg x).token := .inl (reg_printed known)

theorem same_number {a : Token} {w n : Nat} (known : read a = .ok n) (positive : 0 < w)
    (short : w ≤ 4) (small : n < 16 ^ w) : SameOperand m read a (normalize (number w n)) :=
  .inr ⟨n, known, .inl (strtoul_number positive short small)⟩

theorem same_byte {a : Token} {kk : Byte} (known : read a = .ok kk.toNat) :
    SameOperand m read a (Operand.byte kk).token :=
  same_number known (by decide) (by decide) kk.isLt

theorem same_nibble {a : Token} {n : Reg} (known : read a = .ok n.toNat) :
    SameOperand m read a (Operand.nibble n).token :=
  same_number known (by decide) (by decide) n.isLt

theorem same_address {a : Token} {z : Addr} (known : read a = .ok z.toNat) :
    SameOperand m read a (Operand.address z).token :=
  same_number known (by decide) (by decide) z.isLt

theorem same_target {a : Token} {z : Addr} (known : read a = .ok z.toNat) :
    SameOperand m read a (targetOperand m z).token := by
  unfold targetOperand
  split
  · rename_i leads
    exact .inr ⟨z.toNat, known, .inr ⟨leads, rfl⟩⟩
  · exact same_address known

/-- The line of what a statement stands for has the operation and the operands that were
written. -/
theorem lineOf_means {o : Mnemonic} {args : List Token} {i : Insn} (means : Means read o args i) :
    (lineOf m i).op = o.text ∧
      List.Forall₂ (SameOperand m read) (written o.text args)
        ((lineOf m i).operands.map Operand.token) := by
  have plain {a : Token} : SameOperand m read a a := .inl rfl
  -- Registers and keywords are printed as they are written, numbers and targets by value.
  cases means with
  | cls => exact ⟨rfl, .nil⟩
  | ret => exact ⟨rfl, .nil⟩
  | jp target => exact ⟨rfl, .cons (same_target target) .nil⟩
  | jpV0 target => exact ⟨rfl, .cons plain (.cons (same_address target) .nil)⟩
  | call target => exact ⟨rfl, .cons (same_target target) .nil⟩
  | seReg first second => exact ⟨rfl, .cons (same_reg first) (.cons (same_reg second) .nil)⟩
  | seByte first second => exact ⟨rfl, .cons (same_reg first) (.cons (same_byte second) .nil)⟩
  | sneReg first second => exact ⟨rfl, .cons (same_reg first) (.cons (same_reg second) .nil)⟩
  | sneByte first second => exact ⟨rfl, .cons (same_reg first) (.cons (same_byte second) .nil)⟩
  | ldI target => exact ⟨rfl, .cons plain (.cons (same_target target) .nil)⟩
  | store form second =>
    simp only [storeForms, List.mem_cons, Prod.mk.injEq, List.not_mem_nil, or_false] at form
    obtain ⟨rfl, rfl⟩ | ⟨rfl, rfl⟩ | ⟨rfl, rfl⟩ | ⟨rfl, rfl⟩ | ⟨rfl, rfl⟩ := form
    all_goals exact ⟨rfl, .cons plain (.cons (same_reg second) .nil)⟩
  | load form first =>
    simp only [loadForms, List.mem_cons, Prod.mk.injEq, List.not_mem_nil, or_false] at form
    obtain ⟨rfl, rfl⟩ | ⟨rfl, rfl⟩ | ⟨rfl, rfl⟩ := form
    all_goals exact ⟨rfl, .cons (same_reg first) (.cons plain .nil)⟩
  | move first second => exact ⟨rfl, .cons (same_reg first) (.cons (same_reg second) .nil)⟩
  | ld first second other => exact ⟨rfl, .cons (same_reg first) (.cons (same_byte second) .nil)⟩
  | addI second => exact ⟨rfl, .cons plain (.cons (same_reg second) .nil)⟩
  | addReg first second => exact ⟨rfl, .cons (same_reg first) (.cons (same_reg second) .nil)⟩
  | add first second other => exact ⟨rfl, .cons (same_reg first) (.cons (same_byte second) .nil)⟩
  | alu form first second =>
    simp only [aluForms, List.mem_cons, Prod.mk.injEq, List.not_mem_nil, or_false] at form
    obtain ⟨rfl, rfl⟩ | ⟨rfl, rfl⟩ | ⟨rfl, rfl⟩ | ⟨rfl, rfl⟩ | ⟨rfl, rfl⟩ | ⟨rfl, rfl⟩ |
      ⟨rfl, rfl⟩ := form
    all_goals exact ⟨rfl, .cons (same_reg first) (.cons (same_reg second) .nil)⟩
  | shift form first =>
    simp only [shiftForms, List.mem_cons, Prod.mk.injEq, List.not_mem_nil, or_false] at form
    obtain ⟨rfl, rfl⟩ | ⟨rfl, rfl⟩ := form
    all_goals exact ⟨rfl, .cons (same_reg first) (.cons plain .nil)⟩
  | rnd first second => exact ⟨rfl, .cons (same_reg first) (.cons (same_byte second) .nil)⟩
  | drw first second third =>
    exact ⟨rfl, .cons (same_reg first) (.cons (same_reg second) (.cons (same_nibble third) .nil))⟩
  | skp first => exact ⟨rfl, .cons (same_reg first) .nil⟩
  | sknp first => exact ⟨rfl, .cons (same_reg first) .nil⟩

end

/-! ## Printed lines -/

theorem mnemonic_upper (o : Mnemonic) : normalize o.text = o.text := by
  cases o <;> rfl

theorem readLine_output (m : Map) (pc : Nat) (op : Word) :
    readLine (output m pc (disassemble m op)).text = .ok ⟨none, (disassemble m op).tokens⟩ := by
  have made := wordLine_made true m pc op
  have same : wordLine true m pc op = output m pc (disassemble m op) := rfl
  have tokens : (output m pc (disassemble m op)).tokens = (disassemble m op).tokens := by
    unfold output
    split <;> rfl
  rw [← tokens, ← same]
  exact made.read

theorem disassemble_mnemonic {m : Map} {op : Word} (valid : validOpcode op = true) :
    ∃ o : Mnemonic, (disassemble m op).op = o.text := by
  have known {o : Mnemonic} {operands : List Operand} :
      ∃ o' : Mnemonic, (plainLine o operands).op = o'.text := ⟨o, rfl⟩
  unfold validOpcode at valid
  unfold disassemble
  dsimp only
  split
  · exact known
  split
  · exact known
  rename_i notCls notRet
  rw [Bool.eq_false_iff.mpr notCls, Bool.eq_false_iff.mpr notRet] at valid
  split <;> rename_i cls <;> try rw [cls] at valid
  case h_1 => cases valid
  case h_6 | h_10 =>
    split
    · exact known
    · rename_i other
      exact absurd valid other
  -- A valid word has none of the digits that are printed as data.
  case h_9 =>
    unfold disassembleAlu
    dsimp only
    split
    case h_10 =>
      have bound : opLow4 op < 16 := by
        rw [Asm.opLow4_eq]
        exact (immediate4 op).isLt
      have few : opLow4 op ≤ 7 ∨ opLow4 op = 0xe := by simpa using valid
      clear valid
      generalize opLow4 op = low at *
      interval_cases low <;> contradiction
    all_goals exact known
  case h_12 => exact ⟨.jp, rfl⟩
  case h_15 =>
    split
    case h_3 =>
      simp_all
    all_goals exact known
  case h_16 =>
    unfold disassembleF
    dsimp only
    split
    case h_10 =>
      have bound := opClass_lt op
      have last : opClass op = 15 := by
        clear valid
        generalize opClass op = c at *
        interval_cases c <;> first | rfl | contradiction
      rw [last] at valid
      simp_all
    all_goals exact known
  all_goals exact known

theorem instruction_yields {read : Reader} {l : Line} {o : Mnemonic} {w : Word}
    (op : l.op = o.text) (yields : Yields read l w) :
    Asm.instruction read o.text (l.operands.map Operand.token) = .ok w := by
  have plain : (o.text == Asm.dirOrg) = false ∧ (o.text == Asm.dirByte) = false ∧
      (o.text == Asm.dirWord) = false := by
    cases o <;> decide
  have size := yields 0
  unfold Line.tokens at size
  rw [op, mnemonic_upper] at size
  simp only [lineSize, plain.1, plain.2.1, plain.2.2, Bool.false_eq_true, if_false] at size
  obtain ⟨v, known, same⟩ := Asm.bind_ok.mp size
  rw [known, Asm.wordBytes_inj (Prod.mk.inj (Except.ok.inj same)).2]

/-- The interpreter executes the word as an instruction. -/
def Executes (w : Word) : Prop :=
  ∃ i : Insn, ∀ (E : Type) (P : Platform E) (s : State E),
    opcodeAt s.vm.memory s.vm.programCounter = w → Interpreter.basicBlock P s = i.exec P w s

theorem executes_encode (i : Insn) : Executes (encode i) := by
  refine ⟨i, fun E P s word => ?_⟩
  rw [basicBlock_eq, word, Asm.decode_encode]

/-- Disassembling an assembled instruction gives it back, and every valid word is
assembled from the line that is printed for it. -/
theorem instruction_disassemble (symbols : List Asm.Symbol) (m : Map) (pc : Nat) :
    (∀ op args w, Asm.instruction (Asm.value symbols true) op args = .ok w →
      w.toNat < 0x10000 ∧ validOpcode w = true ∧ Executes w ∧
        ∃ operands, readLine (output m pc (disassemble m w)).text = .ok ⟨none, op :: operands⟩ ∧
          List.Forall₂ (SameOperand m (Asm.value symbols true)) (written op args) operands) ∧
      ∀ w, validOpcode w = true →
        (m.leader (nnnOf w) = true →
          Asm.value symbols true (labelName (nnnOf w)) = .ok (nnnOf w)) →
        ∃ op args, readLine (output m pc (disassemble m w)).text = .ok ⟨none, op :: args⟩ ∧
          Asm.instruction (Asm.value symbols true) op args = .ok w := by
  constructor
  · intro op args w accepted
    obtain ⟨o, rfl, i, means, rfl⟩ := Asm.instruction_encodes accepted
    obtain ⟨same, operands⟩ := @lineOf_means m _ _ _ _ means
    refine ⟨(encode i).isLt, valid_encode i, executes_encode i, _, ?_, operands⟩
    rw [readLine_output, disassemble_encode, Line.tokens, same, mnemonic_upper]
  · intro w valid labels
    have numerals : Numerals (Asm.value symbols true) := value_numerals symbols true
    have bound := (immediate12 w).isLt
    have known : Asm.value symbols true (targetOperand m (immediate12 w)).token = .ok (nnnOf w) := by
      unfold targetOperand
      split
      · rename_i leads
        exact labels leads
      · exact address_known numerals (immediate12 w)
    obtain ⟨v, yields, same⟩ := disassemble_yields numerals known (by unfold nnnOf; omega)
    obtain rfl := same rfl
    obtain ⟨o, op⟩ := @disassemble_mnemonic m v valid
    refine ⟨o.text, _, ?_, instruction_yields op yields⟩
    rw [readLine_output, Line.tokens, op, mnemonic_upper]

end ChipEight.Disas
