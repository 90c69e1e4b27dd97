import ChipEight.Asm.Agreement
import ChipEight.Machine.Instruction
import Mathlib.Tactic.IntervalCases

/-! What an accepted statement stands for.

`instruction` makes a word of a statement, and `decode` makes an instruction of a word.
Between the two the word plays no part: `Means` says which instruction a statement is.
-/

set_option autoImplicit false

namespace ChipEight.Asm

/-- The first operands of `LD` in front of a register that is not loaded. -/
def storeForms : List (Token × (Reg → Insn)) :=
  [(wordDT, .setDelay), (wordST, .setSound), (wordF, .ldF), (wordB, .bcd), (wordMemory, .save)]

/-- The second operands of `LD` a register is loaded from. -/
def loadForms : List (Token × (Reg → Insn)) :=
  [(wordDT, .ldDelay), (wordK, .ldKey), (wordMemory, .restore)]

/-- The operations of two registers. -/
def aluForms : List (Mnemonic × AluOp) :=
  [(.or, .or), (.and, .and), (.xor, .xor), (.sub, .sub), (.subn, .subn), (.shr, .shr), (.shl, .shl)]

/-- The operations that may do without their second operand. -/
def shiftForms : List (Mnemonic × AluOp) := [(.shr, .shr), (.shl, .shl)]

inductive Means (read : Reader) : Mnemonic → List Token → Insn → Prop where
  | cls : Means read .cls [] .cls
  | ret : Means read .ret [] .ret
  | jp {a : Token} {z : Addr} (target : read a = .ok z.toNat) : Means read .jp [a] (.jp z)
  | jpV0 {a : Token} {z : Addr} (target : read a = .ok z.toNat) :
      Means read .jp [wordV0, a] (.jpV0 z)
  | call {a : Token} {z : Addr} (target : read a = .ok z.toNat) : Means read .call [a] (.call z)
  | seReg {a b : Token} {x y : Reg} (first : reg a = .ok x) (second : reg b = .ok y) :
      Means read .se [a, b] (.skip (.eqReg x y))
  | seByte {a b : Token} {x : Reg} {kk : Byte} (first : reg a = .ok x)
      (second : read b = .ok kk.toNat) : Means read .se [a, b] (.skip (.eqImm x kk))
  | sneReg {a b : Token} {x y : Reg} (first : reg a = .ok x) (second : reg b = .ok y) :
      Means read .sne [a, b] (.skip (.neReg x y))
  | sneByte {a b : Token} {x : Reg} {kk : Byte} (first : reg a = .ok x)
      (second : read b = .ok kk.toNat) : Means read .sne [a, b] (.skip (.neImm x kk))
  | ldI {b : Token} {z : Addr} (target : read b = .ok z.toNat) :
      Means read .ld [wordI, b] (.ldI z)
  | store {a b : Token} {f : Reg → Insn} {x : Reg} (form : (a, f) ∈ storeForms)
      (second : reg b = .ok x) : Means read .ld [a, b] (f x)
  | load {a b : Token} {f : Reg → Insn} {x : Reg} (form : (b, f) ∈ loadForms)
      (first : reg a = .ok x) : Means read .ld [a, b] (f x)
  | move {a b : Token} {x y : Reg} (first : reg a = .ok x) (second : reg b = .ok y) :
      Means read .ld [a, b] (.alu .move x y)
  | ld {a b : Token} {x : Reg} {kk : Byte} (first : reg a = .ok x)
      (second : read b = .ok kk.toNat) (other : startsWithV b = false) :
      Means read .ld [a, b] (.ld x kk)
  | addI {b : Token} {x : Reg} (second : reg b = .ok x) : Means read .add [wordI, b] (.addI x)
  | addReg {a b : Token} {x y : Reg} (first : reg a = .ok x) (second : reg b = .ok y) :
      Means read .add [a, b] (.alu .add x y)
  | add {a b : Token} {x : Reg} {kk : Byte} (first : reg a = .ok x)
      (second : read b = .ok kk.toNat) (other : startsWithV b = false) :
      Means read .add [a, b] (.add x kk)
  | alu {m : Mnemonic} {o : AluOp} {a b : Token} {x y : Reg} (form : (m, o) ∈ aluForms)
      (first : reg a = .ok x) (second : reg b = .ok y) : Means read m [a, b] (.alu o x y)
  | shift {m : Mnemonic} {o : AluOp} {a : Token} {x : Reg} (form : (m, o) ∈ shiftForms)
      (first : reg a = .ok x) : Means read m [a] (.alu o x 0#4)
  | rnd {a b : Token} {x : Reg} {kk : Byte} (first : reg a = .ok x)
      (second : read b = .ok kk.toNat) : Means read .rnd [a, b] (.rnd x kk)
  | drw {a b c : Token} {x y n : Reg} (first : reg a = .ok x) (second : reg b = .ok y)
      (third : read c = .ok n.toNat) : Means read .drw [a, b, c] (.drw x y n)
  | skp {a : Token} {x : Reg} (first : reg a = .ok x) : Means read .skp [a] (.skipKey x false)
  | sknp {a : Token} {x : Reg} (first : reg a = .ok x) : Means read .sknp [a] (.skipKey x true)

/-! ## Words -/

theorem word_of_bytes (w : Word) :
    ((w >>> 8).setWidth 8 : Byte).setWidth 16 <<< 8 ||| (w.setWidth 8 : Byte).setWidth 16 = w := by
  apply BitVec.eq_of_getLsbD_eq
  intro i small
  interval_cases i <;> simp

theorem wordBytes_inj {v w : Word} (same : wordBytes v = wordBytes w) : v = w := by
  obtain ⟨high, low⟩ := List.cons.inj same
  rw [← word_of_bytes v, ← word_of_bytes w, high, (List.cons.inj low).1]

theorem opLow4_eq (op : Word) : opLow4 op = (immediate4 op).toNat := by
  have low : op &&& 0x000f#16 = (immediate4 op).setWidth 16 := by
    apply BitVec.eq_of_getLsbD_eq
    intro i small
    interval_cases i <;> simp [immediate4]
  rw [opLow4, low, BitVec.toNat_setWidth, Nat.mod_eq_of_lt (by omega)]

theorem opLow8_eq (op : Word) : opLow8 op = (immediate8 op).toNat := by
  have low : op &&& 0x00ff#16 = (immediate8 op).setWidth 16 := by
    apply BitVec.eq_of_getLsbD_eq
    intro i small
    interval_cases i <;> simp [immediate8]
  rw [opLow8, low, BitVec.toNat_setWidth, Nat.mod_eq_of_lt (by omega)]

/-- The word of a class with something in its other twelve bits. -/
def classed (c : Reg) (z : Addr) : Word := c.setWidth 16 <<< 12 ||| z.setWidth 16

theorem classed_class (c : Reg) (z : Addr) : opClass (classed c z) = c.toNat := by
  have high : (classed c z &&& 0xf000#16) >>> 12 = c.setWidth 16 := by
    apply BitVec.eq_of_getLsbD_eq
    intro i small
    interval_cases i <;> simp [classed]
  rw [opClass, high, BitVec.toNat_setWidth, Nat.mod_eq_of_lt (by omega)]

theorem classed_address (c : Reg) (z : Addr) : immediate12 (classed c z) = z := by
  apply BitVec.eq_of_getLsbD_eq
  intro i small
  interval_cases i <;> simp [classed, immediate12]

theorem classed_byte (c x : Reg) (kk : Byte) :
    c.setWidth 16 <<< 12 ||| atX x ||| kk.setWidth 16 =
      classed c (x.setWidth 12 <<< 8 ||| kk.setWidth 12) := by
  apply BitVec.eq_of_getLsbD_eq
  intro i small
  interval_cases i <;> simp [classed, atX]

theorem classed_registers (c x y n : Reg) :
    c.setWidth 16 <<< 12 ||| atX x ||| atY y ||| n.setWidth 16 =
      c.setWidth 16 <<< 12 ||| atX x ||| (y.setWidth 8 <<< 4 ||| n.setWidth 8).setWidth 16 := by
  apply BitVec.eq_of_getLsbD_eq
  intro i small
  interval_cases i <;> simp [atX, atY]

/-- A word of a class, a register and a byte. -/
structure ByteFields (op : Word) (c : Nat) (x : Reg) (kk : Byte) : Prop where
  cls : opClass op = c
  first : opX op = x
  byte : immediate8 op = kk

theorem byteFields (c x : Reg) (kk : Byte) :
    ByteFields (c.setWidth 16 <<< 12 ||| atX x ||| kk.setWidth 16) c.toNat x kk := by
  refine ⟨?_, ?_, ?_⟩
  · rw [classed_byte, classed_class]
  · apply BitVec.eq_of_getLsbD_eq
    intro i small
    interval_cases i <;> simp [atX, opX]
  · apply BitVec.eq_of_getLsbD_eq
    intro i small
    interval_cases i <;> simp [atX, immediate8]

/-- A word of a class, two registers and a nibble. -/
structure RegisterFields (op : Word) (c : Nat) (x y n : Reg) : Prop where
  cls : opClass op = c
  first : opX op = x
  second : opY op = y
  nibble : immediate4 op = n

theorem registerFields (c x y n : Reg) :
    RegisterFields (c.setWidth 16 <<< 12 ||| atX x ||| atY y ||| n.setWidth 16) c.toNat x y n := by
  have bytes := byteFields c x (y.setWidth 8 <<< 4 ||| n.setWidth 8)
  rw [← classed_registers] at bytes
  refine ⟨bytes.cls, bytes.first, ?_, ?_⟩
  · apply BitVec.eq_of_getLsbD_eq
    intro i small
    interval_cases i <;> simp [atX, atY, opY]
  · apply BitVec.eq_of_getLsbD_eq
    intro i small
    interval_cases i <;> simp [atX, atY, immediate4]

/-! ## Decoding -/

theorem decode_address {op : Word} {c : Nat} {z : Addr} {i : Insn} (cls : opClass op = c)
    (value : immediate12 op = z)
    (form : (c, i) ∈ [(1, .jp z), (2, .call z), (0xa, .ldI z), (0xb, .jpV0 z)]) :
    decode op = some i := by
  simp only [List.mem_cons, Prod.mk.injEq, List.not_mem_nil, or_false] at form
  obtain ⟨rfl, rfl⟩ | ⟨rfl, rfl⟩ | ⟨rfl, rfl⟩ | ⟨rfl, rfl⟩ := form
  all_goals
    obtain ⟨clear, ret⟩ := not_miscellaneous cls
    simp only [decode, clear, ret, cls, value, Bool.false_eq_true, if_false]

theorem decode_byte {op : Word} {c : Nat} {x : Reg} {kk : Byte} {i : Insn}
    (fields : ByteFields op c x kk)
    (form : (c, i) ∈ [(3, .skip (.eqImm x kk)), (4, .skip (.neImm x kk)), (6, .ld x kk),
      (7, .add x kk), (0xc, .rnd x kk)]) : decode op = some i := by
  obtain ⟨cls, first, byte⟩ := fields
  simp only [List.mem_cons, Prod.mk.injEq, List.not_mem_nil, or_false] at form
  obtain ⟨rfl, rfl⟩ | ⟨rfl, rfl⟩ | ⟨rfl, rfl⟩ | ⟨rfl, rfl⟩ | ⟨rfl, rfl⟩ := form
  all_goals
    obtain ⟨clear, ret⟩ := not_miscellaneous cls
    simp only [decode, clear, ret, cls, first, byte, Bool.false_eq_true, if_false]

theorem decode_key {op : Word} {x : Reg} {kk : Byte} {up : Bool}
    (fields : ByteFields op 0xe x kk) (form : (kk, up) ∈ [(0x9e#8, false), (0xa1#8, true)]) :
    decode op = some (.skipKey x up) := by
  obtain ⟨cls, first, byte⟩ := fields
  obtain ⟨clear, ret⟩ := not_miscellaneous cls
  have low := opLow8_eq op
  rw [byte] at low
  simp only [List.mem_cons, Prod.mk.injEq, List.not_mem_nil, or_false] at form
  obtain ⟨rfl, rfl⟩ | ⟨rfl, rfl⟩ := form
  all_goals
    simp only [decode, clear, ret, cls, first, low, Bool.false_eq_true, if_false]
    rfl

theorem decode_misc {op : Word} {x : Reg} {kk : Byte} {i : Insn}
    (fields : ByteFields op 0xf x kk) (form : decodeF kk.toNat x = some i) :
    decode op = some i := by
  obtain ⟨cls, first, byte⟩ := fields
  obtain ⟨clear, ret⟩ := not_miscellaneous cls
  have low := opLow8_eq op
  rw [byte] at low
  simp only [decode, clear, ret, cls, first, low, form, Bool.false_eq_true, if_false]

theorem decode_registers {op : Word} {c : Nat} {x y n : Reg} {i : Insn}
    (fields : RegisterFields op c x y n)
    (form : (c, i) ∈ [(5, .skip (.eqReg x y)), (9, .skip (.neReg x y)), (0xd, .drw x y n)]) :
    decode op = some i := by
  obtain ⟨cls, first, second, nibble⟩ := fields
  simp only [List.mem_cons, Prod.mk.injEq, List.not_mem_nil, or_false] at form
  obtain ⟨rfl, rfl⟩ | ⟨rfl, rfl⟩ | ⟨rfl, rfl⟩ := form
  all_goals
    obtain ⟨clear, ret⟩ := not_miscellaneous cls
    simp only [decode, clear, ret, cls, first, second, nibble, Bool.false_eq_true,
      if_false]

theorem decode_alu {op : Word} {x y n : Reg} {o : AluOp}
    (fields : RegisterFields op 8 x y n) (form : decodeAlu n.toNat = some o) :
    decode op = some (.alu o x y) := by
  obtain ⟨cls, first, second, nibble⟩ := fields
  obtain ⟨clear, ret⟩ := not_miscellaneous cls
  have low := opLow4_eq op
  rw [nibble] at low
  simp only [decode, clear, ret, cls, first, second, low, form, Bool.false_eq_true,
    if_false, Option.map_some]

/-! ## Encoding -/

/-- The low nibble of a class 8 word. -/
def aluNibble : AluOp → Reg
  | .move => 0x0
  | .or => 0x1
  | .and => 0x2
  | .xor => 0x3
  | .add => 0x4
  | .sub => 0x5
  | .shr => 0x6
  | .subn => 0x7
  | .shl => 0xe

/-- The word `instruction` makes of an instruction. -/
def encode : Insn → Word
  | .cls => 0x00e0#16
  | .ret => 0x00ee#16
  | .jp z => 0x1000#16 ||| z.setWidth 16
  | .call z => 0x2000#16 ||| z.setWidth 16
  | .skip (.eqImm x kk) => 0x3000#16 ||| atX x ||| kk.setWidth 16
  | .skip (.neImm x kk) => 0x4000#16 ||| atX x ||| kk.setWidth 16
  | .skip (.eqReg x y) => 0x5000#16 ||| atX x ||| atY y
  | .ld x kk => 0x6000#16 ||| atX x ||| kk.setWidth 16
  | .add x kk => 0x7000#16 ||| atX x ||| kk.setWidth 16
  | .alu o x y => 0x8000#16 ||| atX x ||| atY y ||| (aluNibble o).setWidth 16
  | .skip (.neReg x y) => 0x9000#16 ||| atX x ||| atY y
  | .ldI z => 0xa000#16 ||| z.setWidth 16
  | .jpV0 z => 0xb000#16 ||| z.setWidth 16
  | .rnd x kk => 0xc000#16 ||| atX x ||| kk.setWidth 16
  | .drw x y n => 0xd000#16 ||| atX x ||| atY y ||| n.setWidth 16
  | .skipKey x false => 0xe09e#16 ||| atX x
  | .skipKey x true => 0xe0a1#16 ||| atX x
  | .ldDelay x => 0xf007#16 ||| atX x
  | .ldKey x => 0xf00a#16 ||| atX x
  | .setDelay x => 0xf015#16 ||| atX x
  | .setSound x => 0xf018#16 ||| atX x
  | .addI x => 0xf01e#16 ||| atX x
  | .ldF x => 0xf029#16 ||| atX x
  | .bcd x => 0xf033#16 ||| atX x
  | .save x => 0xf055#16 ||| atX x
  | .restore x => 0xf065#16 ||| atX x

theorem registerFields_zero (c x y : Reg) :
    RegisterFields (c.setWidth 16 <<< 12 ||| atX x ||| atY y) c.toNat x y 0#4 := by
  have fields := registerFields c x y 0#4
  rwa [show (0#4).setWidth 16 = 0#16 from rfl, BitVec.or_zero] at fields

theorem fixedFields (c x : Reg) (kk : Byte) :
    ByteFields ((c.setWidth 16 <<< 12 ||| kk.setWidth 16) ||| atX x) c.toNat x kk := by
  rw [or_register]
  exact byteFields c x kk

theorem decode_encode (i : Insn) : decode (encode i) = some i := by
  have address (c : Reg) (z : Addr) := classed_address c z
  have misc {kk : Byte} {x : Reg} {i : Insn} (form : decodeF kk.toNat x = some i) :
      decode ((0xf000#16 ||| kk.setWidth 16) ||| atX x) = some i :=
    decode_misc (fixedFields 0xf#4 x kk) form
  -- By the fields of the word: an address, a byte, two registers, or a byte that selects.
  cases i with
  | cls => rfl
  | ret => rfl
  | jp z => exact decode_address (classed_class 1#4 z) (address 1#4 z) (by simp)
  | call z => exact decode_address (classed_class 2#4 z) (address 2#4 z) (by simp)
  | ldI z => exact decode_address (classed_class 0xa#4 z) (address 0xa#4 z) (by simp)
  | jpV0 z => exact decode_address (classed_class 0xb#4 z) (address 0xb#4 z) (by simp)
  | skip c =>
    cases c with
    | eqImm x kk => exact decode_byte (byteFields 3#4 x kk) (by simp)
    | neImm x kk => exact decode_byte (byteFields 4#4 x kk) (by simp)
    | eqReg x y => exact decode_registers (registerFields_zero 5#4 x y) (by simp)
    | neReg x y => exact decode_registers (registerFields_zero 9#4 x y) (by simp)
  | ld x kk => exact decode_byte (byteFields 6#4 x kk) (by simp)
  | add x kk => exact decode_byte (byteFields 7#4 x kk) (by simp)
  | alu o x y =>
    refine decode_alu (registerFields 8#4 x y (aluNibble o)) ?_
    cases o <;> rfl
  | rnd x kk => exact decode_byte (byteFields 0xc#4 x kk) (by simp)
  | drw x y n => exact decode_registers (registerFields 0xd#4 x y n) (by simp)
  | skipKey x up =>
    cases up with
    | false => exact decode_key (fixedFields 0xe#4 x 0x9e#8) (by simp)
    | true => exact decode_key (fixedFields 0xe#4 x 0xa1#8) (by simp)
  | ldDelay x => exact @misc 0x07#8 x _ rfl
  | ldKey x => exact @misc 0x0a#8 x _ rfl
  | setDelay x => exact @misc 0x15#8 x _ rfl
  | setSound x => exact @misc 0x18#8 x _ rfl
  | addI x => exact @misc 0x1e#8 x _ rfl
  | ldF x => exact @misc 0x29#8 x _ rfl
  | bcd x => exact @misc 0x33#8 x _ rfl
  | save x => exact @misc 0x55#8 x _ rfl
  | restore x => exact @misc 0x65#8 x _ rfl

/-! ## Statements -/

section
variable {read : Reader}

theorem immediate_inv {t : Token} {w max : Nat} {problem : Nat → Problem} {z : Word}
    (bound : max < 2 ^ w) (ok : immediate read t max problem = .ok z) :
    ∃ v : BitVec w, read t = .ok v.toNat ∧ z = v.setWidth 16 := by
  obtain ⟨n, known, ok⟩ := bind_ok.mp ok
  obtain ⟨_, small, ok⟩ := bind_ok.mp ok
  have within := range_ok.mp small
  refine ⟨BitVec.ofNat w n, ?_, ?_⟩
  · rw [BitVec.toNat_ofNat, Nat.mod_eq_of_lt (by omega), known]
  · rw [← Except.ok.inj ok]
    apply BitVec.eq_of_toNat_eq
    rw [BitVec.toNat_setWidth, BitVec.toNat_ofNat, BitVec.toNat_ofNat,
      Nat.mod_eq_of_lt (show n < 2 ^ w by omega)]

theorem address_inv {t : Token} {z : Word} (ok : address read t = .ok z) :
    ∃ a : Addr, read t = .ok a.toNat ∧ z = a.setWidth 16 :=
  immediate_inv (by decide) ok

theorem byte_inv {t : Token} {z : Word} (ok : byte read t = .ok z) :
    ∃ kk : Byte, read t = .ok kk.toNat ∧ z = kk.setWidth 16 :=
  immediate_inv (by decide) ok

/-- The word is that of an instruction the statement stands for. -/
def Spells (read : Reader) (m : Mnemonic) (args : List Token) (w : Word) : Prop :=
  ∃ i, Means read m args i ∧ encode i = w

theorem skipWord_ok {registers bytes : Word} {a b : Token} {w : Word}
    (ok : skipWord read registers bytes a b = .ok w) :
    (∃ x y, reg a = .ok x ∧ reg b = .ok y ∧ w = registers ||| atX x ||| atY y) ∨
      ∃ x kk, reg a = .ok x ∧ read b = .ok (kk : Byte).toNat ∧
        w = bytes ||| atX x ||| kk.setWidth 16 := by
  obtain ⟨x, first, ok⟩ := bind_ok.mp ok
  split at ok
  · obtain ⟨y, second, ok⟩ := bind_ok.mp ok
    exact .inl ⟨x, y, first, second, (Except.ok.inj ok).symm⟩
  · obtain ⟨z, second, ok⟩ := bind_ok.mp ok
    obtain ⟨kk, known, rfl⟩ := byte_inv second
    exact .inr ⟨x, kk, first, known, (Except.ok.inj ok).symm⟩

theorem se_encodes {a b : Token} {w : Word}
    (ok : skipWord read 0x5000#16 0x3000#16 a b = .ok w) : Spells read .se [a, b] w := by
  obtain ⟨x, y, first, second, rfl⟩ | ⟨x, kk, first, second, rfl⟩ := skipWord_ok ok
  · exact ⟨_, .seReg first second, rfl⟩
  · exact ⟨_, .seByte first second, rfl⟩

theorem sne_encodes {a b : Token} {w : Word}
    (ok : skipWord read 0x9000#16 0x4000#16 a b = .ok w) : Spells read .sne [a, b] w := by
  obtain ⟨x, y, first, second, rfl⟩ | ⟨x, kk, first, second, rfl⟩ := skipWord_ok ok
  · exact ⟨_, .sneReg first second, rfl⟩
  · exact ⟨_, .sneByte first second, rfl⟩

theorem registerWord_encodes {m : Mnemonic} {o : AluOp} {a b : Token} {w : Word}
    (form : (m, o) ∈ aluForms) (ok : registerWord ((aluNibble o).setWidth 16) a b = .ok w) :
    Spells read m [a, b] w := by
  obtain ⟨x, first, ok⟩ := bind_ok.mp ok
  obtain ⟨y, second, ok⟩ := bind_ok.mp ok
  exact ⟨_, .alu form first second, Except.ok.inj ok⟩

theorem shiftWord_encodes {m : Mnemonic} {o : AluOp} {a : Token} {w : Word}
    (form : (m, o) ∈ shiftForms) (ok : registerWord ((aluNibble o).setWidth 16) a wordV0 = .ok w) :
    Spells read m [a] w := by
  obtain ⟨x, first, ok⟩ := bind_ok.mp ok
  obtain ⟨y, second, ok⟩ := bind_ok.mp ok
  cases second
  exact ⟨_, .shift form first, Except.ok.inj ok⟩

theorem loadWord_encodes {a b : Token} {w : Word} (ok : loadWord read a b = .ok w) :
    Spells read .ld [a, b] w := by
  -- The five stores differ in the name of the first operand and in the word.
  have store {base : Word} {f : Reg → Insn} {c : Token} (form : (c, f) ∈ storeForms)
      (word : ∀ x, encode (f x) = base ||| atX x)
      (ok : (reg b >>= fun x => Except.ok (base ||| atX x)) = .ok w) :
      Spells read .ld [c, b] w := by
    obtain ⟨x, second, ok⟩ := bind_ok.mp ok
    exact ⟨f x, .store form second, (word x).trans (Except.ok.inj ok)⟩
  unfold loadWord at ok
  split at ok
  · rename_i isI
    rw [beq_iff_eq.mp isI]
    obtain ⟨z, target, ok⟩ := bind_ok.mp ok
    obtain ⟨z, known, rfl⟩ := address_inv target
    exact ⟨_, .ldI known, Except.ok.inj ok⟩
  split at ok
  · rename_i same
    rw [beq_iff_eq.mp same]
    exact @store _ .setDelay _ (by simp [storeForms]) (fun _ => rfl) ok
  split at ok
  · rename_i same
    rw [beq_iff_eq.mp same]
    exact @store _ .setSound _ (by simp [storeForms]) (fun _ => rfl) ok
  split at ok
  · rename_i same
    rw [beq_iff_eq.mp same]
    exact @store _ .ldF _ (by simp [storeForms]) (fun _ => rfl) ok
  split at ok
  · rename_i same
    rw [beq_iff_eq.mp same]
    exact @store _ .bcd _ (by simp [storeForms]) (fun _ => rfl) ok
  split at ok
  · rename_i same
    rw [beq_iff_eq.mp same]
    exact @store _ .save _ (by simp [storeForms]) (fun _ => rfl) ok
  -- Behind them the first operand is a register.
  obtain ⟨x, first, ok⟩ := bind_ok.mp ok
  split at ok
  · rename_i same
    rw [beq_iff_eq.mp same]
    exact ⟨.ldDelay x, .load (by simp [loadForms]) first, Except.ok.inj ok⟩
  split at ok
  · rename_i same
    rw [beq_iff_eq.mp same]
    exact ⟨.ldKey x, .load (by simp [loadForms]) first, Except.ok.inj ok⟩
  split at ok
  · rename_i same
    rw [beq_iff_eq.mp same]
    exact ⟨.restore x, .load (by simp [loadForms]) first, Except.ok.inj ok⟩
  split at ok
  · obtain ⟨y, second, ok⟩ := bind_ok.mp ok
    refine ⟨_, .move first second, Eq.trans ?_ (Except.ok.inj ok)⟩
    exact BitVec.or_zero
  · rename_i other
    obtain ⟨z, second, ok⟩ := bind_ok.mp ok
    obtain ⟨kk, known, rfl⟩ := byte_inv second
    exact ⟨_, .ld first known (Bool.eq_false_iff.mpr other), Except.ok.inj ok⟩

theorem addWord_encodes {a b : Token} {w : Word} (ok : addWord read a b = .ok w) :
    Spells read .add [a, b] w := by
  unfold addWord at ok
  split at ok
  · rename_i isI
    rw [beq_iff_eq.mp isI]
    obtain ⟨x, second, ok⟩ := bind_ok.mp ok
    exact ⟨_, .addI second, Except.ok.inj ok⟩
  obtain ⟨x, first, ok⟩ := bind_ok.mp ok
  split at ok
  · obtain ⟨y, second, ok⟩ := bind_ok.mp ok
    refine ⟨_, .addReg first second, Eq.trans ?_ (Except.ok.inj ok)⟩
    exact (or_registers 0x8000#16 0x0004#16 _ _).symm
  · rename_i other
    obtain ⟨z, second, ok⟩ := bind_ok.mp ok
    obtain ⟨kk, known, rfl⟩ := byte_inv second
    exact ⟨_, .add first known (Bool.eq_false_iff.mpr other), Except.ok.inj ok⟩

theorem address_encodes {m : Mnemonic} {base : Word} {a : Token} {args : List Token}
    {f : Addr → Insn} {w : Word} (means : ∀ z : Addr, read a = .ok z.toNat → Means read m args (f z))
    (word : ∀ z, encode (f z) = base ||| z.setWidth 16)
    (ok : (address read a >>= fun z => Except.ok (base ||| z)) = .ok w) :
    Spells read m args w := by
  obtain ⟨z, target, ok⟩ := bind_ok.mp ok
  obtain ⟨z, known, rfl⟩ := address_inv target
  exact ⟨f z, means z known, (word z).trans (Except.ok.inj ok)⟩

theorem mnemonic_text {op : Token} {m : Mnemonic} (found : mnemonic op = some m) : op = m.text :=
  (beq_iff_eq.mp (@List.find?_some _ (fun m : Mnemonic => m.text == op) m mnemonics found)).symm

theorem instruction_encodes {op : Token} {args : List Token} {w : Word}
    (ok : instruction read op args = .ok w) :
    ∃ m, op = m.text ∧ Spells read m args w := by
  unfold instruction at ok
  -- One case for each operation and number of operands that `instruction` tests.
  split at ok
  case h_1 found => exact ⟨.cls, mnemonic_text found, .cls, .cls, Except.ok.inj ok⟩
  case h_2 found => exact ⟨.ret, mnemonic_text found, .ret, .ret, Except.ok.inj ok⟩
  case h_3 a found =>
    exact ⟨.jp, mnemonic_text found,
      @address_encodes _ _ _ _ _ .jp _ (fun _ => .jp) (fun _ => rfl) ok⟩
  case h_4 v a found =>
    split at ok
    · cases ok
    · rename_i isV0
      obtain rfl : v = wordV0 := by simpa using isV0
      exact ⟨.jp, mnemonic_text found,
        @address_encodes _ _ _ _ _ .jpV0 _ (fun _ => .jpV0) (fun _ => rfl) ok⟩
  case h_5 a found =>
    exact ⟨.call, mnemonic_text found,
      @address_encodes _ _ _ _ _ .call _ (fun _ => .call) (fun _ => rfl) ok⟩
  case h_6 a b found => exact ⟨.se, mnemonic_text found, se_encodes ok⟩
  case h_7 a b found => exact ⟨.sne, mnemonic_text found, sne_encodes ok⟩
  case h_8 a b found => exact ⟨.ld, mnemonic_text found, loadWord_encodes ok⟩
  case h_9 a b found => exact ⟨.add, mnemonic_text found, addWord_encodes ok⟩
  case h_10 a b found =>
    exact ⟨.or, mnemonic_text found, @registerWord_encodes read .or .or a b w (by decide) ok⟩
  case h_11 a b found =>
    exact ⟨.and, mnemonic_text found, @registerWord_encodes read .and .and a b w (by decide) ok⟩
  case h_12 a b found =>
    exact ⟨.xor, mnemonic_text found, @registerWord_encodes read .xor .xor a b w (by decide) ok⟩
  case h_13 a b found =>
    exact ⟨.sub, mnemonic_text found, @registerWord_encodes read .sub .sub a b w (by decide) ok⟩
  case h_14 a b found =>
    exact ⟨.subn, mnemonic_text found, @registerWord_encodes read .subn .subn a b w (by decide) ok⟩
  case h_15 a found =>
    exact ⟨.shr, mnemonic_text found, @shiftWord_encodes read .shr .shr a w (by decide) ok⟩
  case h_16 a b found =>
    exact ⟨.shr, mnemonic_text found, @registerWord_encodes read .shr .shr a b w (by decide) ok⟩
  case h_17 a found =>
    exact ⟨.shl, mnemonic_text found, @shiftWord_encodes read .shl .shl a w (by decide) ok⟩
  case h_18 a b found =>
    exact ⟨.shl, mnemonic_text found, @registerWord_encodes read .shl .shl a b w (by decide) ok⟩
  case h_19 a b found =>
    obtain ⟨x, first, ok⟩ := bind_ok.mp ok
    obtain ⟨z, second, ok⟩ := bind_ok.mp ok
    obtain ⟨kk, known, rfl⟩ := byte_inv second
    exact ⟨.rnd, mnemonic_text found, _, .rnd first known, Except.ok.inj ok⟩
  case h_20 a b c found =>
    obtain ⟨x, first, ok⟩ := bind_ok.mp ok
    obtain ⟨y, second, ok⟩ := bind_ok.mp ok
    obtain ⟨z, third, ok⟩ := bind_ok.mp ok
    obtain ⟨n, known, rfl⟩ := @immediate_inv read c 4 0xf _ z (by decide) third
    exact ⟨.drw, mnemonic_text found, _, .drw first second known, Except.ok.inj ok⟩
  case h_21 a found =>
    obtain ⟨x, first, ok⟩ := bind_ok.mp ok
    exact ⟨.skp, mnemonic_text found, _, .skp first, Except.ok.inj ok⟩
  case h_22 a found =>
    obtain ⟨x, first, ok⟩ := bind_ok.mp ok
    exact ⟨.sknp, mnemonic_text found, _, .sknp first, Except.ok.inj ok⟩
  case h_23 => cases ok
  case h_24 => cases ok

/-- What the decoder makes of the word of a statement. -/
def Stands (read : Reader) (m : Mnemonic) (args : List Token) (w : Word) : Prop :=
  ∃ i, Means read m args i ∧ decode w = some i

theorem instruction_stands {op : Token} {args : List Token} {w : Word}
    (ok : instruction read op args = .ok w) :
    ∃ m, op = m.text ∧ Stands read m args w := by
  obtain ⟨m, text, i, means, rfl⟩ := instruction_encodes ok
  exact ⟨m, text, i, means, decode_encode i⟩

/-! ## Operands -/

/-- Words without anything beyond ASCII. -/
def Ascii (t : Token) : Prop := ∀ c ∈ t, c.toNat < 128

theorem Ascii.cons {c : Char} {t : Token} (small : c.toNat < 128) (rest : Ascii t) :
    Ascii (c :: t) := List.forall_mem_cons.mpr ⟨small, rest⟩

theorem digitValue_ascii {c : Char} {d : Nat} (digit : digitValue c = some d) : c.toNat < 128 := by
  unfold digitValue at digit
  simp only [isdigit, isupper, islower, between, Char.reduceToNat, Bool.and_eq_true,
    decide_eq_true_eq] at digit
  split at digit
  · omega
  split at digit
  · omega
  split at digit
  · omega
  · cases digit

theorem numeralFrom_ascii {base n m : Nat} {t : Text} (known : numeralFrom base n t = some m) :
    Ascii t := by
  induction t generalizing n with
  | nil => exact fun c here => absurd here List.not_mem_nil
  | cons c cs ih =>
    unfold numeralFrom at known
    split at known
    · rename_i digit
      split at known
      · exact .cons (digitValue_ascii digit) (ih known)
      · cases known
    · cases known

theorem numeral_ascii {base m : Nat} {t : Text} (known : numeral base t = some m) : Ascii t := by
  unfold numeral at known
  split at known
  · cases known
  · exact numeralFrom_ascii known

theorem magnitude_ascii {m : Nat} {t : Text} (known : magnitude t = some m) : Ascii t := by
  unfold magnitude at known
  split at known
  · exact .cons (by decide) (.cons (by decide) (numeral_ascii known))
  · exact .cons (by decide) (.cons (by decide) (numeral_ascii known))
  · exact numeral_ascii known
  · exact numeral_ascii known

theorem strtoul_ascii {m : Nat} {t : Token} (known : strtoul t = some m) : Ascii t := by
  unfold strtoul at known
  split at known
  · obtain ⟨n, size, -⟩ := Option.bind_eq_some_iff.mp known
    exact .cons (by decide) (magnitude_ascii size)
  · obtain ⟨n, size, -⟩ := Option.bind_eq_some_iff.mp known
    exact .cons (by decide) (magnitude_ascii size)
  · obtain ⟨n, size, -⟩ := Option.bind_eq_some_iff.mp known
    exact magnitude_ascii size

theorem name_ascii {t : Token} (valid : isName t = true) : Ascii t := by
  have letter {c : Char} (part : (isalnum c || c == '_') = true) : c.toNat < 128 := by
    simp only [isalnum, isalpha, isupper, islower, isdigit, between, Char.reduceToNat,
      Bool.or_eq_true, Bool.and_eq_true, decide_eq_true_eq, beq_iff_eq] at part
    obtain ((upper | lower) | digit) | rfl := part
    · omega
    · omega
    · omega
    · decide
  cases t with
  | nil => cases valid
  | cons c cs =>
    obtain ⟨first, rest⟩ := Bool.and_eq_true_iff.mp valid
    refine .cons (letter ?_) fun c' here => letter (List.all_eq_true.mp rest c' here)
    unfold isalnum
    rw [Bool.or_right_comm, first, Bool.true_or]

theorem value_ascii {symbols : List Symbol} (addresses : Addresses symbols) {t : Token} {n : Nat}
    (known : value symbols true t = .ok n) : Ascii t := by
  unfold value at known
  split at known
  · rename_i number
    exact strtoul_ascii number
  · split at known
    · rename_i symbol found
      have same : symbol.name = t := beq_iff_eq.mp
        (@List.find?_some _ (fun s : Symbol => s.name == t) symbol symbols found)
      exact same ▸ name_ascii (addresses symbol (List.mem_of_find?_eq_some found)).1
    · cases known

theorem reg_ascii {t : Token} {x : Reg} (known : reg t = .ok x) : Ascii t := by
  unfold reg at known
  split at known
  · rename_i c
    refine .cons (by decide) (.cons ?_ fun c here => absurd here List.not_mem_nil)
    simp only [isdigit, between, Char.reduceToNat, Bool.and_eq_true, decide_eq_true_eq] at known
    split at known
    · omega
    split at known
    · omega
    · cases known
  · cases known

theorem Means.ascii {m : Mnemonic} {args : List Token} {i : Insn} (means : Means read m args i)
    (clean : ∀ t n, read t = .ok n → Ascii t) : ∀ a ∈ args, Ascii a := by
  have keyword : ∀ r ∈ [wordI, wordDT, wordST, wordF, wordB, wordK, wordMemory, wordV0], Ascii r := by
    unfold Ascii
    decide
  have stores {a : Token} {f : Reg → Insn} (form : (a, f) ∈ storeForms) : Ascii a := by
    have listed : a ∈ storeForms.map Prod.fst := List.mem_map_of_mem form
    have known : storeForms.map Prod.fst ⊆
        [wordI, wordDT, wordST, wordF, wordB, wordK, wordMemory, wordV0] := by decide
    exact keyword a (known listed)
  have loads {a : Token} {f : Reg → Insn} (form : (a, f) ∈ loadForms) : Ascii a := by
    have listed : a ∈ loadForms.map Prod.fst := List.mem_map_of_mem form
    have known : loadForms.map Prod.fst ⊆
        [wordI, wordDT, wordST, wordF, wordB, wordK, wordMemory, wordV0] := by decide
    exact keyword a (known listed)
  cases means
  all_goals
    simp only [List.forall_mem_cons, List.not_mem_nil, false_implies, implies_true, and_true]
  case jp target | call target => exact clean _ _ target
  case jpV0 target => exact ⟨keyword wordV0 (by decide), clean _ _ target⟩
  case ldI target => exact ⟨keyword wordI (by decide), clean _ _ target⟩
  case seReg first second | sneReg first second | move first second | addReg first second =>
    exact ⟨reg_ascii first, reg_ascii second⟩
  case alu first second form => exact ⟨reg_ascii first, reg_ascii second⟩
  case seByte first second | sneByte first second | rnd first second =>
    exact ⟨reg_ascii first, clean _ _ second⟩
  case ld first second other | add first second other => exact ⟨reg_ascii first, clean _ _ second⟩
  case store form second => exact ⟨stores form, reg_ascii second⟩
  case load form first => exact ⟨reg_ascii first, loads form⟩
  case addI second => exact ⟨keyword wordI (by decide), reg_ascii second⟩
  case shift first form => exact reg_ascii first
  case drw first second third => exact ⟨reg_ascii first, reg_ascii second, clean _ _ third⟩
  case skp first | sknp first => exact reg_ascii first

end

end ChipEight.Asm
