import ChipEight.Asm.Printing
import ChipEight.Disas.Print

/-! A word is encoded again from what disas.c prints for it. -/

set_option autoImplicit false

namespace ChipEight.Disas

open Asm (Text Token Mnemonic Reader IsWord normalize lineSize wordBytes atX atY
  wordI wordDT wordST wordF wordB wordK wordMemory wordV0 or_register or_registers)

/-! ## Numbers -/

theorem hexDigit_cases {n : Nat} (small : n < 16) :
    Asm.isLetter (hexDigit n) = true ∧ Asm.toupper (hexDigit n) = hexDigit n ∧
      Asm.digitValue (hexDigit n) = some n ∧ (hexDigit n).toNat < 128 := by
  interval_cases n <;> decide

theorem hex_digits {w n : Nat} {c : Char} (here : c ∈ hex w n) : ∃ d < 16, c = hexDigit d := by
  induction w generalizing n with
  | zero => cases here
  | succ w ih =>
    obtain high | low := List.mem_append.mp here
    · exact ih high
    · exact ⟨n % 16, Nat.mod_lt n (by decide), List.mem_singleton.mp low⟩

theorem hex_length (w n : Nat) : (hex w n).length = w := by
  induction w generalizing n with
  | zero => rfl
  | succ w ih => rw [hex, List.length_append, ih, List.length_singleton]

theorem normalize_hex (w n : Nat) : normalize (hex w n) = hex w n := by
  have same : ∀ c ∈ hex w n, Asm.toupper c = id c := by
    intro c here
    obtain ⟨d, small, rfl⟩ := hex_digits here
    exact (hexDigit_cases small).2.1
  exact (List.map_congr_left same).trans (List.map_id _)

theorem numeralFrom_hex {w n : Nat} (small : n < 16 ^ w) (k : Nat) (rest : Text) :
    Asm.numeralFrom 16 k (hex w n ++ rest) = Asm.numeralFrom 16 (k * 16 ^ w + n) rest := by
  induction w generalizing n k rest with
  | zero =>
    rw [Nat.pow_zero] at small
    rw [hex, List.nil_append, Nat.pow_zero, Nat.mul_one, Nat.lt_one_iff.mp small, Nat.add_zero]
  | succ w ih =>
    have high : n / 16 < 16 ^ w := Nat.div_lt_of_lt_mul (by rwa [Nat.pow_succ'] at small)
    have low : n % 16 < 16 := Nat.mod_lt n (by decide)
    rw [hex, List.append_assoc, ih high, List.singleton_append, Asm.numeralFrom,
      (hexDigit_cases low).2.2.1]
    dsimp only
    rw [if_pos low]
    congr 1
    have split := Nat.div_add_mod n 16
    calc (k * 16 ^ w + n / 16) * 16 + n % 16
        = k * (16 ^ w * 16) + (16 * (n / 16) + n % 16) := by ring
      _ = k * 16 ^ (w + 1) + n := by rw [split, Nat.pow_succ]

theorem hex_inj {w a b : Nat} (small : a < 16 ^ w) (small' : b < 16 ^ w)
    (same : hex w a = hex w b) : a = b := by
  have first := numeralFrom_hex small 0 []
  have second := numeralFrom_hex small' 0 []
  rw [same] at first
  have values := first.symm.trans second
  rw [Nat.zero_mul, Nat.zero_add, Nat.zero_add] at values
  exact Option.some.inj values

theorem hex_name (w n : Nat) : (hex w n).all (fun c => Asm.isalnum c || c == '_') = true := by
  have digits : ∀ n < 16, Asm.isalnum (hexDigit n) = true := by decide
  refine List.all_eq_true.mpr fun c here => ?_
  obtain ⟨d, small, rfl⟩ := hex_digits here
  rw [digits d small]
  rfl

theorem strtoul_number {w n : Nat} (positive : 0 < w) (short : w ≤ 4) (small : n < 16 ^ w) :
    Asm.strtoul (normalize (number w n)) = some n := by
  have shape : normalize (number w n) = '0' :: 'X' :: hex w n := by
    show '0' :: 'X' :: normalize (hex w n) = _
    rw [normalize_hex]
  have nonempty : (hex w n).isEmpty = false := by
    apply List.isEmpty_eq_false_iff.mpr
    intro empty
    have none := hex_length w n
    rw [empty] at none
    exact absurd none.symm (Nat.ne_of_gt positive)
  have value : Asm.numeral 16 (hex w n) = some n := by
    have whole := numeralFrom_hex small 0 []
    rw [List.append_nil] at whole
    simp only [Asm.numeral, nonempty, Bool.false_eq_true, if_false, whole, Nat.zero_mul,
      Nat.zero_add]
    rfl
  have fits : ¬ n > Asm.ulongMax := by
    have bound : 16 ^ w ≤ 16 ^ 4 := Nat.pow_le_pow_right (by decide) short
    unfold Asm.ulongMax
    omega
  rw [shape]
  show (Asm.numeral 16 (hex w n)).bind (fun n => if n > Asm.ulongMax then none else some n) = _
  rw [value]
  exact if_neg fits

/-! ## Operands -/

/-- An operand as the assembler sees it. -/
def Operand.token (o : Operand) : Token := normalize o.text

/-- The reader knows the numbers that are printed. -/
def Numerals (read : Reader) : Prop :=
  ∀ {w n : Nat}, 0 < w → w ≤ 4 → n < 16 ^ w → read (normalize (number w n)) = .ok n

theorem value_numerals (symbols : List Asm.Symbol) (resolve : Bool) :
    Numerals (Asm.value symbols resolve) := by
  intro w n positive short small
  have bound : 16 ^ w ≤ 16 ^ 4 := Nat.pow_le_pow_right (by decide) short
  unfold Asm.value
  rw [strtoul_number positive short small]
  dsimp only
  exact if_neg (by omega)

theorem address_known {read : Reader} (numerals : Numerals read) (nnn : Addr) :
    read (Operand.address nnn).token = .ok nnn.toNat :=
  numerals (by decide) (by decide) nnn.isLt

theorem reg_token (x : Reg) : Asm.reg (Operand.reg x).token = .ok x := by
  revert x
  decide

theorem reg_printed {a : Token} {x : Reg} (known : Asm.reg a = .ok x) :
    a = (Operand.reg x).token := by
  unfold Asm.reg at known
  split at known
  · rename_i c
    have value : c = Char.ofNat c.toNat := (Char.ofNat_toNat c).symm
    simp only [Asm.isdigit, Asm.between, Char.reduceToNat, Bool.and_eq_true, decide_eq_true_eq]
      at known
    rw [value]
    split at known
    · rename_i digit
      obtain ⟨low, high⟩ := digit
      cases known
      generalize c.toNat = k at *
      interval_cases k <;> decide
    split at known
    · rename_i letter
      obtain ⟨low, high⟩ := letter
      cases known
      generalize c.toNat = k at *
      interval_cases k <;> decide
    · cases known
  · cases known

theorem startsWithV_reg (x : Reg) : Asm.startsWithV (Operand.reg x).token = true := by
  revert x
  decide

theorem token_ne_reg (x : Reg) {w : Token} (other : w.head? ≠ some 'V') :
    ((Operand.reg x).token == w) = false := by
  apply beq_false_of_ne
  rintro rfl
  exact other rfl

theorem token_ne_byte (kk : Byte) {w : Token} (other : w.head? ≠ some '0') :
    ((Operand.byte kk).token == w) = false := by
  apply beq_false_of_ne
  rintro rfl
  exact other rfl

/-! ## Fields -/

theorem word_registers (op : Word) :
    (op &&& 0xf000#16) ||| atX (opX op) ||| atY (opY op) ||| (immediate4 op).setWidth 16 = op := by
  apply BitVec.eq_of_getLsbD_eq
  intro i small
  interval_cases i <;> simp [atX, atY, opX, opY, immediate4]

theorem word_byte (op : Word) :
    (op &&& 0xf000#16) ||| atX (opX op) ||| (immediate8 op).setWidth 16 = op := by
  apply BitVec.eq_of_getLsbD_eq
  intro i small
  interval_cases i <;> simp [atX, opX, immediate8]

theorem word_address (op : Word) :
    (op &&& 0xf000#16) ||| (immediate12 op).setWidth 16 = op := by
  apply BitVec.eq_of_getLsbD_eq
  intro i small
  interval_cases i <;> simp [immediate12]

theorem high_class {op : Word} {c : Nat} (cls : opClass op = c) :
    op &&& 0xf000#16 = BitVec.ofNat 16 c <<< 12 := by
  rw [← cls, opClass, BitVec.ofNat_toNat, BitVec.setWidth_eq]
  apply BitVec.eq_of_getLsbD_eq
  intro i small
  interval_cases i <;> simp

theorem low8_eq {op : Word} {k : Nat} (low : opLow8 op = k) : immediate8 op = BitVec.ofNat 8 k := by
  rw [← low, opLow8, BitVec.ofNat_toNat]
  apply BitVec.eq_of_getLsbD_eq
  intro i small
  interval_cases i <;> simp [immediate8]

theorem low4_eq {op : Word} {k : Nat} (low : opLow4 op = k) : immediate4 op = BitVec.ofNat 4 k := by
  rw [← low, opLow4, BitVec.ofNat_toNat]
  apply BitVec.eq_of_getLsbD_eq
  intro i small
  interval_cases i <;> simp [immediate4]

/-! ## Instructions -/

section
variable {read : Reader}

theorem immediate_ok {t : Token} {z max : Nat} {problem : Nat → Asm.Problem}
    (known : read t = .ok z) (small : z ≤ max) :
    Asm.immediate read t max problem = .ok (BitVec.ofNat 16 z) := by
  simp only [Asm.immediate, Asm.range, known, if_neg (Nat.not_lt.mpr small), bind, Except.bind]
  rfl

theorem byte_token (numerals : Numerals read) (kk : Byte) :
    Asm.byte read (Operand.byte kk).token = .ok (kk.setWidth 16) := by
  have known : read (Operand.byte kk).token = .ok kk.toNat :=
    numerals (by decide) (by decide) kk.isLt
  have small := kk.isLt
  rw [Asm.byte, immediate_ok known (by omega), BitVec.ofNat_toNat]

theorem nibble_token (numerals : Numerals read) (n : Reg) :
    Asm.immediate read (Operand.nibble n).token 0xf .nibbleRange = .ok (n.setWidth 16) := by
  have known : read (Operand.nibble n).token = .ok n.toNat :=
    numerals (by decide) (by decide) n.isLt
  have small := n.isLt
  rw [immediate_ok known (by omega), BitVec.ofNat_toNat]

theorem skipWord_registers (registers bytes : Word) (x y : Reg) :
    Asm.skipWord read registers bytes (Operand.reg x).token (Operand.reg y).token =
      .ok (registers ||| atX x ||| atY y) := by
  simp only [Asm.skipWord, reg_token, startsWithV_reg]
  rfl

theorem skipWord_byte (numerals : Numerals read) (registers bytes : Word) (x : Reg) (kk : Byte) :
    Asm.skipWord read registers bytes (Operand.reg x).token (Operand.byte kk).token =
      .ok (bytes ||| atX x ||| kk.setWidth 16) := by
  simp only [Asm.skipWord, reg_token, byte_token numerals]
  rfl

theorem loadWord_reg (x : Reg) (b : Token) :
    Asm.loadWord read (Operand.reg x).token b =
      (if b == wordDT then .ok (0xf007#16 ||| atX x)
      else if b == wordK then .ok (0xf00a#16 ||| atX x)
      else if b == wordMemory then .ok (0xf065#16 ||| atX x)
      else if Asm.startsWithV b then (Asm.reg b).map fun y => 0x8000#16 ||| atX x ||| atY y
      else (Asm.byte read b).map fun z => 0x6000#16 ||| atX x ||| z) := by
  simp only [Asm.loadWord, token_ne_reg x (show wordI.head? ≠ some 'V' by decide),
    token_ne_reg x (show wordDT.head? ≠ some 'V' by decide),
    token_ne_reg x (show wordST.head? ≠ some 'V' by decide),
    token_ne_reg x (show wordF.head? ≠ some 'V' by decide),
    token_ne_reg x (show wordB.head? ≠ some 'V' by decide),
    token_ne_reg x (show wordMemory.head? ≠ some 'V' by decide), reg_token, Bool.false_eq_true,
    if_false]
  rfl

theorem loadWord_registers (x y : Reg) :
    Asm.loadWord read (Operand.reg x).token (Operand.reg y).token =
      .ok (0x8000#16 ||| atX x ||| atY y) := by
  simp only [loadWord_reg, token_ne_reg y (show wordDT.head? ≠ some 'V' by decide),
    token_ne_reg y (show wordK.head? ≠ some 'V' by decide),
    token_ne_reg y (show wordMemory.head? ≠ some 'V' by decide), startsWithV_reg, reg_token,
    Bool.false_eq_true, if_false, if_true]
  rfl

theorem loadWord_byte (numerals : Numerals read) (x : Reg) (kk : Byte) :
    Asm.loadWord read (Operand.reg x).token (Operand.byte kk).token =
      .ok (0x6000#16 ||| atX x ||| kk.setWidth 16) := by
  simp only [loadWord_reg, token_ne_byte kk (show wordDT.head? ≠ some '0' by decide),
    token_ne_byte kk (show wordK.head? ≠ some '0' by decide),
    token_ne_byte kk (show wordMemory.head? ≠ some '0' by decide),
    byte_token numerals, Bool.false_eq_true, if_false]
  rfl

/-- The stores of `LD`: what the first operand names, the second one is its register. -/
theorem loadWord_store (x : Reg) {a : Token} {w : Word}
    (known : (a, w) ∈ [(wordDT, 0xf015#16), (wordST, 0xf018#16), (wordF, 0xf029#16),
      (wordB, 0xf033#16), (wordMemory, 0xf055#16)]) :
    Asm.loadWord read a (Operand.reg x).token = .ok (w ||| atX x) := by
  simp only [List.mem_cons, Prod.mk.injEq, List.not_mem_nil, or_false] at known
  obtain ⟨rfl, rfl⟩ | ⟨rfl, rfl⟩ | ⟨rfl, rfl⟩ | ⟨rfl, rfl⟩ | ⟨rfl, rfl⟩ := known
  all_goals
    show (Asm.reg (Operand.reg x).token >>= fun y => _) = _
    rw [reg_token]
    rfl

theorem addWord_registers (x y : Reg) :
    Asm.addWord read (Operand.reg x).token (Operand.reg y).token =
      .ok (0x8004#16 ||| atX x ||| atY y) := by
  simp only [Asm.addWord, token_ne_reg x (show wordI.head? ≠ some 'V' by decide), reg_token,
    startsWithV_reg, Bool.false_eq_true, if_false]
  rfl

theorem addWord_byte (numerals : Numerals read) (x : Reg) (kk : Byte) :
    Asm.addWord read (Operand.reg x).token (Operand.byte kk).token =
      .ok (0x7000#16 ||| atX x ||| kk.setWidth 16) := by
  simp only [Asm.addWord, token_ne_reg x (show wordI.head? ≠ some 'V' by decide), reg_token,
    byte_token numerals, Bool.false_eq_true, if_false]
  rfl

theorem registerWord_registers (low : Word) (x y : Reg) :
    Asm.registerWord low (Operand.reg x).token (Operand.reg y).token =
      .ok (0x8000#16 ||| atX x ||| atY y ||| low) := by
  simp only [Asm.registerWord, reg_token]
  rfl

/-! ## Lines -/

/-- The words of a line as the assembler sees them. -/
def Line.tokens (l : Line) : List Token := normalize l.op :: l.operands.map Operand.token

/-- The assembler makes `w` of the line. -/
def Yields (read : Reader) (l : Line) (w : Word) : Prop :=
  ∀ pc, lineSize read pc l.tokens = .ok (2, wordBytes w)

theorem yields_plain {o : Mnemonic} {operands : List Operand} {w : Word}
    (encoded : Asm.instruction read o.text (operands.map Operand.token) = .ok w) :
    Yields read (plainLine o operands) w := by
  have upper : normalize o.text = o.text := by
    cases o <;> rfl
  have plain : (o.text == Asm.dirOrg) = false ∧ (o.text == Asm.dirByte) = false ∧
      (o.text == Asm.dirWord) = false := by
    cases o <;> decide
  intro pc
  unfold Line.tokens plainLine
  dsimp only
  rw [upper]
  simp only [lineSize, plain.1, plain.2.1, plain.2.2, encoded, Bool.false_eq_true, if_false]
  rfl

theorem yields_word (numerals : Numerals read) (op : Word) (comment : Text) :
    Yields read ⟨dotWord, [.word op], comment⟩ op := by
  intro pc
  have known : read (Operand.word op).token = .ok op.toNat :=
    numerals (by decide) (by decide) op.isLt
  have small : ¬ op.toNat > 0xffff := by
    have bound := op.isLt
    omega
  show (Asm.dataBytes read 0xffff .wordRange Asm.wordOf [(Operand.word op).token] >>=
    fun out => _) = _
  simp only [Asm.dataBytes, known, Asm.range, if_neg small, bind, Except.bind]
  show Except.ok (2, wordBytes (BitVec.ofNat 16 op.toNat) ++ []) = _
  rw [BitVec.ofNat_toNat, BitVec.setWidth_eq, List.append_nil]

theorem disassembleAlu_yields (numerals : Numerals read) {op : Word} (cls : opClass op = 8) :
    Yields read (disassembleAlu op) op := by
  have whole := word_registers op
  rw [high_class cls] at whole
  unfold disassembleAlu
  dsimp only
  split
  case h_5 low =>
    rw [low4_eq low] at whole
    refine yields_plain ((addWord_registers (opX op) (opY op)).trans (congrArg Except.ok ?_))
    exact (or_registers 0x8000#16 0x0004#16 _ _).trans whole
  case h_1 low =>
    rw [low4_eq low] at whole
    refine yields_plain ((loadWord_registers (opX op) (opY op)).trans (congrArg Except.ok ?_))
    exact (or_registers 0x8000#16 0 _ _).trans whole
  case h_10 => exact yields_word numerals op unrecognized
  all_goals
    rename_i low
    rw [low4_eq low] at whole
    exact yields_plain ((registerWord_registers _ (opX op) (opY op)).trans
      (congrArg Except.ok whole))

theorem disassembleF_yields (numerals : Numerals read) {op : Word} (cls : opClass op = 15) :
    Yields read (disassembleF op) op := by
  have whole := word_byte op
  rw [high_class cls] at whole
  have fields {k : Nat} (low : opLow8 op = k) :
      0xf000#16 ||| (BitVec.ofNat 8 k).setWidth 16 ||| atX (opX op) = op := by
    rw [low8_eq low] at whole
    exact (or_register _ _ _).trans whole
  have store {a : Token} {w : Word}
      (known : (a, w) ∈ [(wordDT, 0xf015#16), (wordST, 0xf018#16), (wordF, 0xf029#16),
        (wordB, 0xf033#16), (wordMemory, 0xf055#16)]) (upper : normalize a = a)
      (same : w ||| atX (opX op) = op) :
      Yields read (plainLine .ld [.plain a, .reg (opX op)]) op := by
    refine yields_plain (Eq.trans ?_ (congrArg Except.ok same))
    show Asm.loadWord read (normalize a) _ = _
    rw [upper]
    exact loadWord_store (opX op) known
  have load {b : Token} {w : Word}
      (known : (b, w) ∈ [(wordDT, 0xf007#16), (wordK, 0xf00a#16), (wordMemory, 0xf065#16)])
      (same : w ||| atX (opX op) = op) :
      Yields read (plainLine .ld [.reg (opX op), .plain b]) op := by
    refine yields_plain (Eq.trans ?_ (congrArg Except.ok same))
    show Asm.loadWord read _ (normalize b) = _
    rw [loadWord_reg]
    simp only [List.mem_cons, Prod.mk.injEq, List.not_mem_nil, or_false] at known
    obtain ⟨rfl, rfl⟩ | ⟨rfl, rfl⟩ | ⟨rfl, rfl⟩ := known
    all_goals rfl
  unfold disassembleF
  dsimp only
  split
  case h_1 low => exact load (by decide) (fields low)
  case h_2 low => exact load (by decide) (fields low)
  case h_9 low => exact load (by decide) (fields low)
  case h_3 low => exact store (by decide) rfl (fields low)
  case h_4 low => exact store (by decide) rfl (fields low)
  case h_6 low => exact store (by decide) rfl (fields low)
  case h_7 low => exact store (by decide) rfl (fields low)
  case h_8 low => exact store (by decide) rfl (fields low)
  case h_5 low =>
    refine yields_plain (Eq.trans ?_ (congrArg Except.ok (fields low)))
    show (Asm.reg (Operand.reg (opX op)).token >>= fun y => _) = _
    rw [reg_token]
    rfl
  case h_10 => exact yields_word numerals op unrecognized

/-- The word is made of the line `disassemble` prints for it, where the reader knows the
target by its address; any reader that knows the target makes some word of it. -/
theorem disassemble_yields (numerals : Numerals read) {m : Map} {op : Word} {z : Nat}
    (known : read (targetOperand m (immediate12 op)).token = .ok z) (small : z ≤ 0xfff) :
    ∃ w, Yields read (disassemble m op) w ∧ (z = nnnOf op → w = op) := by
  have registers := word_registers op
  have bytes := word_byte op
  have addresses := word_address op
  have address : Asm.address read (targetOperand m (immediate12 op)).token =
      .ok (BitVec.ofNat 16 z) := immediate_ok known small
  have sameTarget {base : Word} (shape : base ||| (immediate12 op).setWidth 16 = op) :
      z = nnnOf op → base ||| BitVec.ofNat 16 z = op := by
    rintro rfl
    rw [nnnOf, BitVec.ofNat_toNat]
    exact shape
  -- Only `JP`, `CALL` and `LD I` name their target; every other line makes its own word.
  have itself {l : Line} (yields : Yields read l op) :
      ∃ w, Yields read l w ∧ (z = nnnOf op → w = op) := ⟨op, yields, fun _ => rfl⟩
  unfold disassemble
  dsimp only
  split
  · rename_i clear
    refine itself (yields_plain (congrArg Except.ok ?_))
    exact (beq_iff_eq.mp clear).symm
  split
  · rename_i ret
    refine itself (yields_plain (congrArg Except.ok ?_))
    exact (beq_iff_eq.mp ret).symm
  split
  case h_1 => exact itself (yields_word numerals op unrecognized)
  case h_2 cls | h_3 cls | h_11 cls =>
    rw [high_class cls] at addresses
    refine ⟨_, yields_plain ?_, sameTarget addresses⟩
    show (Asm.address read _ >>= fun z => _) = _
    rw [address]
    rfl
  case h_12 cls =>
    rw [high_class cls] at addresses
    have own : Asm.address read (Operand.address (immediate12 op)).token =
        .ok ((immediate12 op).setWidth 16) := by
      have there : read (Operand.address (immediate12 op)).token = .ok (nnnOf op) :=
        numerals (by decide) (by decide) (immediate12 op).isLt
      have bound := (immediate12 op).isLt
      rw [Asm.address, immediate_ok there (by unfold nnnOf; omega), nnnOf, BitVec.ofNat_toNat]
    have encoded : Asm.instruction read Mnemonic.jp.text
        [wordV0, (Operand.address (immediate12 op)).token] = .ok op := by
      refine Eq.trans ?_ (congrArg Except.ok addresses)
      show (Asm.address read _ >>= fun z => _) = _
      rw [own]
      rfl
    exact itself (@yields_plain read .jp [.plain wordV0, .address (immediate12 op)] op encoded)
  case h_4 cls | h_5 cls =>
    rw [high_class cls] at bytes
    exact itself (yields_plain ((skipWord_byte numerals _ _ _ _).trans (congrArg Except.ok bytes)))
  case h_6 cls =>
    split
    · rename_i low
      rw [high_class cls, low4_eq (beq_iff_eq.mp low)] at registers
      refine itself (yields_plain ((skipWord_registers _ _ _ _).trans (congrArg Except.ok ?_)))
      exact (or_registers 0x5000#16 0 _ _).trans registers
    · exact itself (yields_word numerals op unrecognized)
  case h_10 cls =>
    split
    · rename_i low
      rw [high_class cls, low4_eq (beq_iff_eq.mp low)] at registers
      refine itself (yields_plain ((skipWord_registers _ _ _ _).trans (congrArg Except.ok ?_)))
      exact (or_registers 0x9000#16 0 _ _).trans registers
    · exact itself (yields_word numerals op unrecognized)
  case h_7 cls =>
    rw [high_class cls] at bytes
    exact itself (yields_plain ((loadWord_byte numerals _ _).trans (congrArg Except.ok bytes)))
  case h_8 cls =>
    rw [high_class cls] at bytes
    exact itself (yields_plain ((addWord_byte numerals _ _).trans (congrArg Except.ok bytes)))
  case h_9 cls => exact itself (disassembleAlu_yields numerals cls)
  case h_13 cls =>
    rw [high_class cls] at bytes
    refine itself (yields_plain (Eq.trans ?_ (congrArg Except.ok bytes)))
    show (Asm.reg (Operand.reg (opX op)).token >>= fun x => _) = _
    rw [reg_token]
    show (Asm.byte read (Operand.byte (immediate8 op)).token >>= fun z => _) = _
    rw [byte_token numerals]
    rfl
  case h_14 cls =>
    rw [high_class cls] at registers
    refine itself (yields_plain (Eq.trans ?_ (congrArg Except.ok registers)))
    show (Asm.reg (Operand.reg (opX op)).token >>= fun x => _) = _
    rw [reg_token]
    show (Asm.reg (Operand.reg (opY op)).token >>= fun y => _) = _
    rw [reg_token]
    show (Asm.immediate read (Operand.nibble (immediate4 op)).token 0xf .nibbleRange >>=
      fun z => _) = _
    rw [nibble_token numerals]
    rfl
  case h_15 cls =>
    rw [high_class cls] at bytes
    split
    case h_3 => exact itself (yields_word numerals op unrecognized)
    all_goals
      rename_i low
      rw [low8_eq low] at bytes
      refine itself (yields_plain (Eq.trans ?_
        (congrArg Except.ok ((or_register 0xe000#16 _ _).trans bytes))))
      show (Asm.reg (Operand.reg (opX op)).token >>= fun x => _) = _
      rw [reg_token]
      rfl
  case h_16 =>
    have last : opClass op = 15 := by
      have bound := opClass_lt op
      clear itself sameTarget
      generalize opClass op = cls at *
      interval_cases cls <;> first | rfl | contradiction
    exact itself (disassembleF_yields numerals last)

end

end ChipEight.Disas
