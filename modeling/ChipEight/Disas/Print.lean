import ChipEight.Asm.Encode
import ChipEight.Disas.Descend

/-! The assembler text disas.c prints with `--asm`.

A line is kept apart into the operation, its operands and the comment behind it until it
is printed.
-/

set_option autoImplicit false

namespace ChipEight.Disas

open Asm (Text Token Mnemonic wordI wordDT wordST wordF wordB wordK wordMemory wordV0)

/-! ## Gluing -/

/-- A byte in the loops of `glue_unreachable`; `inside` says that an unreachable run has
begun before it. -/
def glueByte (size : Nat) (inside : Bool) (m : Map) (a : Nat) : Map × Bool :=
  if m.reach a then (m, false)
  else if inside then (m.setLeader a false, true)
  else (m.leaderIf (labelable a size) a, true)

def glueFrom (size : Nat) (inside : Bool) (m : Map) : List Nat → Map
  | [] => m
  | a :: rest =>
    let r := glueByte size inside m a
    glueFrom size r.2 r.1 rest

def glueUnreachable (size : Nat) (m : Map) : Map :=
  glueFrom size false m (upTo entrypoint.toNat (endOf size))

/-- What `main` prints from. -/
def finalMap (rom : List Byte) : Map :=
  glueUnreachable rom.length (descend rom (analyze rom .empty))

/-! ## Numbers -/

def hexDigit (n : Nat) : Char :=
  if n < 10 then Char.ofNat ('0'.toNat + n) else Char.ofNat ('A'.toNat + (n - 10))

/-- `%0wX` on a number of at most `w` digits. -/
def hex : Nat → Nat → Text
  | 0, _ => []
  | w + 1, n => hex w (n / 16) ++ [hexDigit (n % 16)]

/-- `0x%0wX`. -/
def number (w n : Nat) : Text := '0' :: 'x' :: hex w n

/-- `block%03X`. -/
def blockName (a : Nat) : Text := ['b', 'l', 'o', 'c', 'k'] ++ hex 3 a

/-! ## Lines -/

/-- What stands behind the operation in a format string. -/
inductive Operand where
  | reg (x : Reg)
  | byte (kk : Byte)
  | nibble (n : Reg)
  | address (nnn : Addr)
  | block (nnn : Addr)
  | word (op : Word)
  | plain (t : Token)
  deriving DecidableEq, Repr

def Operand.text : Operand → Text
  | .reg x => 'V' :: hex 1 x.toNat
  | .byte kk => number 2 kk.toNat
  | .nibble n => number 1 n.toNat
  | .address nnn => number 3 nnn.toNat
  | .block nnn => blockName nnn.toNat
  | .word op => number 4 op.toNat
  | .plain t => t

structure Line where
  op : Token
  operands : List Operand
  comment : Text
  deriving DecidableEq, Repr

/-- The operands, the separators in front of them included. -/
def operandsText : List Operand → Text
  | [] => []
  | [o] => ' ' :: o.text
  | o :: rest => ' ' :: o.text ++ ',' :: operandsText rest

def indent : Text := List.replicate 8 ' '

def Line.text (l : Line) : Text := indent ++ l.op ++ operandsText l.operands ++ l.comment

def unrecognized : Text := " ; unrecognized opcode".toList
def unreachable : Text := " ; unreachable".toList
def deadComment : Text := " ; data (unreachable)".toList
def jumpWarning : Text := " ; WARNING: indirect jump, block analysis may be incomplete".toList

def dotWord : Token := ['.', 'w', 'o', 'r', 'd']
def dotByte : Token := ['.', 'b', 'y', 't', 'e']

/-- Lines without a comment of their own. -/
def plainLine (o : Mnemonic) (operands : List Operand) : Line := ⟨o.text, operands, []⟩

/-- `raw_word`. -/
def rawWord (op : Word) : Line := ⟨dotWord, [.word op], unrecognized⟩

/-- `leader[nnn]` chooses the label over the number. -/
def targetOperand (m : Map) (nnn : Addr) : Operand :=
  if m.leader nnn.toNat then .block nnn else .address nnn

/-- The two registers of class 8. -/
def disassembleAlu (op : Word) : Line :=
  let operands := [.reg (opX op), .reg (opY op)]
  match opLow4 op with
  | 0x0 => plainLine .ld operands
  | 0x1 => plainLine .or operands
  | 0x2 => plainLine .and operands
  | 0x3 => plainLine .xor operands
  | 0x4 => plainLine .add operands
  | 0x5 => plainLine .sub operands
  | 0x6 => plainLine .shr operands
  | 0x7 => plainLine .subn operands
  | 0xe => plainLine .shl operands
  | _ => rawWord op

def disassembleF (op : Word) : Line :=
  let x := .reg (opX op)
  match opLow8 op with
  | 0x07 => plainLine .ld [x, .plain wordDT]
  | 0x0a => plainLine .ld [x, .plain wordK]
  | 0x15 => plainLine .ld [.plain wordDT, x]
  | 0x18 => plainLine .ld [.plain wordST, x]
  | 0x1e => plainLine .add [.plain wordI, x]
  | 0x29 => plainLine .ld [.plain wordF, x]
  | 0x33 => plainLine .ld [.plain wordB, x]
  | 0x55 => plainLine .ld [.plain wordMemory, x]
  | 0x65 => plainLine .ld [x, .plain wordMemory]
  | _ => rawWord op

/-- `disassemble`. -/
def disassemble (m : Map) (op : Word) : Line :=
  let x := .reg (opX op)
  let y := .reg (opY op)
  let kk := .byte (immediate8 op)
  if op == 0x00e0#16 then plainLine .cls []
  else if op == 0x00ee#16 then plainLine .ret []
  else match opClass op with
    | 0x0 => rawWord op
    | 0x1 => plainLine .jp [targetOperand m (immediate12 op)]
    | 0x2 => plainLine .call [targetOperand m (immediate12 op)]
    | 0x3 => plainLine .se [x, kk]
    | 0x4 => plainLine .sne [x, kk]
    | 0x5 => if opLow4 op == 0 then plainLine .se [x, y] else rawWord op
    | 0x6 => plainLine .ld [x, kk]
    | 0x7 => plainLine .add [x, kk]
    | 0x8 => disassembleAlu op
    | 0x9 => if opLow4 op == 0 then plainLine .sne [x, y] else rawWord op
    | 0xa => plainLine .ld [.plain wordI, targetOperand m (immediate12 op)]
    | 0xb => ⟨Mnemonic.jp.text, [.plain wordV0, .address (immediate12 op)], jumpWarning⟩
    | 0xc => plainLine .rnd [x, kk]
    | 0xd => plainLine .drw [x, y, .nibble (immediate4 op)]
    | 0xe => match opLow8 op with
      | 0x9e => plainLine .skp [x]
      | 0xa1 => plainLine .sknp [x]
      | _ => rawWord op
    | _ => disassembleF op

/-- `output`, with the comment it adds to words that were not reached. -/
def output (m : Map) (pc : Nat) (l : Line) : Line :=
  if m.reach pc then l else { l with comment := l.comment ++ unreachable }

/-- A word printed as data. -/
def isDead (decodeUnreachable : Bool) (m : Map) (pc : Nat) : Bool :=
  !decodeUnreachable && !m.reach pc

def wordLine (decodeUnreachable : Bool) (m : Map) (pc : Nat) (op : Word) : Line :=
  if isDead decodeUnreachable m pc then ⟨dotWord, [.word op], deadComment⟩
  else output m pc (disassemble m op)

def labelLines (m : Map) (pc : Nat) : List Text :=
  if m.leader pc then [blockName pc ++ [':']] else []

/-- The lines of `main`, each without its newline. -/
def listing (decodeUnreachable : Bool) (rom : List Byte) : List Text :=
  let m := finalMap rom
  let words := (wordAddresses rom.length).flatMap fun pc =>
    labelLines m pc ++ [(wordLine decodeUnreachable m pc (wordAt rom pc)).text]
  let last := endOf rom.length - 1
  if rom.length % 2 == 1 then
    words ++ labelLines m last ++ [(⟨dotByte, [.byte (byteAt rom last)], []⟩ : Line).text]
  else words

/-- Standard output. -/
def asmOutput (decodeUnreachable : Bool) (rom : List Byte) : Text :=
  ((listing decodeUnreachable rom).map (· ++ ['\n'])).flatten

example : asmOutput false [0x12, 0x02, 0x60, 0x05] =
    "block200:\n        JP block202\nblock202:\n        LD V0, 0x05\n".toList := by decide +kernel

end ChipEight.Disas
