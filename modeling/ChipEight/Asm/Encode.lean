import ChipEight.Asm.Text
import ChipEight.Machine.State

/-! Operands, instructions and directives of asm.c.

`value` depends on the symbol table, so the encoder takes it as an argument: both
passes run the same encoder over different readings of the symbols.
-/

set_option autoImplicit false

namespace ChipEight.Asm

/-- What `fail` is called with; the texts are those of asm.c. -/
inductive Problem where
  | tooManyTokens                    -- "too many tokens"
  | invalidLabel (name : Token)      -- "invalid label '%s'"
  | duplicateLabel (name : Token)    -- "duplicate label '%s'"
  | tooManyLabels                    -- "too many labels"
  | numberTooLarge (s : Token)       -- "number '%s' is too large"
  | undefinedSymbol (s : Token)      -- "undefined symbol '%s'"
  | expectedRegister (s : Token)     -- "expected V0 through VF, got '%s'"
  | addressRange (n : Nat)           -- "address out of range: 0x%X"
  | byteRange (n : Nat)              -- "byte out of range: 0x%X"
  | nibbleRange (n : Nat)            -- "nibble out of range: 0x%X"
  | wordRange (n : Nat)              -- "word out of range: 0x%X"
  | operandCount (op : Token)        -- "wrong operand count for %s"
  | offsetForm                       -- "JP offset form requires V0"
  | unknownInstruction (op : Token)  -- "unknown instruction '%s'"
  | orgOperands                      -- ".ORG needs one address"
  | orgRange                         -- ".ORG must be from 0x200 through 0xFFF"
  | orgBackwards                     -- ".ORG cannot move backwards"
  | byteOperands                     -- ".BYTE needs at least one value"
  | wordOperands                     -- ".WORD needs at least one value"
  | memoryFull                       -- "program exceeds 4 KiB CHIP-8 memory"
  deriving DecidableEq, Repr

abbrev Reader := Token → Except Problem Nat

/-- `name` is an array of 128 characters; `define` does not check that the label fits,
and what follows is about labels that do. -/
structure Symbol where
  name : Token
  value : Nat
  deriving DecidableEq, Repr

def maxSymbols : Nat := 2048

def isName : Token → Bool
  | [] => false
  | c :: cs => (isalpha c || c == '_') && cs.all fun c => isalnum c || c == '_'

def lookup (symbols : List Symbol) (name : Token) : Option Symbol :=
  symbols.find? fun s => s.name == name

def define (symbols : List Symbol) (name : Token) (value : Nat) : Except Problem (List Symbol) :=
  if !isName name then .error (.invalidLabel name)
  else if (lookup symbols name).isSome then .error (.duplicateLabel name)
  else if symbols.length == maxSymbols then .error .tooManyLabels
  else .ok (symbols ++ [⟨name, value⟩])

def value (symbols : List Symbol) (resolve : Bool) : Reader := fun s =>
  match strtoul s with
  | some n => if n > 0xffff then .error (.numberTooLarge s) else .ok n
  | none =>
    match lookup symbols s with
    | some symbol => .ok symbol.value
    | none => if resolve then .error (.undefinedSymbol s) else .ok 0

def reg : Token → Except Problem Reg
  | ['V', c] =>
    if isdigit c then .ok (BitVec.ofNat 4 (c.toNat - '0'.toNat))
    else if between 'A' 'F' c then .ok (BitVec.ofNat 4 (c.toNat - 'A'.toNat + 10))
    else .error (.expectedRegister ['V', c])
  | s => .error (.expectedRegister s)

def range (n max : Nat) (problem : Nat → Problem) : Except Problem Unit :=
  if n > max then .error (problem n) else .ok ()

/-! ## Instructions -/

/-- The words `t[0]` is compared with. -/
inductive Mnemonic where
  | cls | ret | jp | call | se | sne | ld | add | or | and | xor | sub | subn | shr | shl | rnd
  | drw | skp | sknp
  deriving DecidableEq, Repr

def Mnemonic.text : Mnemonic → Token
  | .cls => ['C', 'L', 'S']
  | .ret => ['R', 'E', 'T']
  | .jp => ['J', 'P']
  | .call => ['C', 'A', 'L', 'L']
  | .se => ['S', 'E']
  | .sne => ['S', 'N', 'E']
  | .ld => ['L', 'D']
  | .add => ['A', 'D', 'D']
  | .or => ['O', 'R']
  | .and => ['A', 'N', 'D']
  | .xor => ['X', 'O', 'R']
  | .sub => ['S', 'U', 'B']
  | .subn => ['S', 'U', 'B', 'N']
  | .shr => ['S', 'H', 'R']
  | .shl => ['S', 'H', 'L']
  | .rnd => ['R', 'N', 'D']
  | .drw => ['D', 'R', 'W']
  | .skp => ['S', 'K', 'P']
  | .sknp => ['S', 'K', 'N', 'P']

def mnemonics : List Mnemonic :=
  [.cls, .ret, .jp, .call, .se, .sne, .ld, .add, .or, .and, .xor, .sub, .subn, .shr, .shl, .rnd,
    .drw, .skp, .sknp]

def mnemonic (t : Token) : Option Mnemonic := mnemonics.find? fun m => m.text == t

def wordI : Token := ['I']
def wordDT : Token := ['D', 'T']
def wordST : Token := ['S', 'T']
def wordF : Token := ['F']
def wordB : Token := ['B']
def wordK : Token := ['K']
def wordMemory : Token := ['[', 'I', ']']
def wordV0 : Token := ['V', '0']

/-- `(x << 8)` -/
def atX (x : Reg) : Word := x.setWidth 16 <<< 8

/-- `(y << 4)` -/
def atY (y : Reg) : Word := y.setWidth 16 <<< 4

theorem or_registers (base low x y : Word) :
    (base ||| low) ||| x ||| y = base ||| x ||| y ||| low := by
  rw [BitVec.or_assoc base low x, BitVec.or_comm low x, ← BitVec.or_assoc base x low,
    BitVec.or_assoc (base ||| x) low y, BitVec.or_comm low y, ← BitVec.or_assoc]

theorem or_register (base low x : Word) : (base ||| low) ||| x = base ||| x ||| low := by
  rw [BitVec.or_assoc, BitVec.or_comm low x, ← BitVec.or_assoc]

/-- `t[2][0] == 'V'` -/
def startsWithV (t : Token) : Bool := t.head? == some 'V'

section
variable (value : Reader)

/-- An operand read by `value` and checked by `range`. -/
def immediate (s : Token) (max : Nat) (problem : Nat → Problem) : Except Problem Word := do
  let z ← value s
  range z max problem
  return BitVec.ofNat 16 z

def address (s : Token) : Except Problem Word := immediate value s 0xfff .addressRange

def byte (s : Token) : Except Problem Word := immediate value s 0xff .byteRange

/-- `SE` and `SNE`. -/
def skipWord (registers bytes : Word) (a b : Token) : Except Problem Word := do
  let x ← reg a
  if startsWithV b then
    let y ← reg b
    return registers ||| atX x ||| atY y
  let z ← byte value b
  return bytes ||| atX x ||| z

def loadWord (a b : Token) : Except Problem Word := do
  if a == wordI then
    let z ← address value b
    return 0xa000#16 ||| z
  if a == wordDT then return 0xf015#16 ||| atX (← reg b)
  if a == wordST then return 0xf018#16 ||| atX (← reg b)
  if a == wordF then return 0xf029#16 ||| atX (← reg b)
  if a == wordB then return 0xf033#16 ||| atX (← reg b)
  if a == wordMemory then return 0xf055#16 ||| atX (← reg b)
  let x ← reg a
  if b == wordDT then return 0xf007#16 ||| atX x
  if b == wordK then return 0xf00a#16 ||| atX x
  if b == wordMemory then return 0xf065#16 ||| atX x
  if startsWithV b then return 0x8000#16 ||| atX x ||| atY (← reg b)
  let z ← byte value b
  return 0x6000#16 ||| atX x ||| z

def addWord (a b : Token) : Except Problem Word := do
  if a == wordI then return 0xf01e#16 ||| atX (← reg b)
  let x ← reg a
  if startsWithV b then return 0x8004#16 ||| atX x ||| atY (← reg b)
  let z ← byte value b
  return 0x7000#16 ||| atX x ||| z

/-- The operations of two registers. -/
def registerWord (low : Word) (a b : Token) : Except Problem Word := do
  let x ← reg a
  let y ← reg b
  return 0x8000#16 ||| atX x ||| atY y ||| low

/-- `instruction`; `NEED` is the match on the operands. -/
def instruction (op : Token) (args : List Token) : Except Problem Word :=
  match mnemonic op, args with
  | some .cls, [] => .ok 0x00e0#16
  | some .ret, [] => .ok 0x00ee#16
  | some .jp, [a] => do
    let z ← address value a
    return 0x1000#16 ||| z
  | some .jp, [v, a] => do
    if v != wordV0 then throw .offsetForm
    let z ← address value a
    return 0xb000#16 ||| z
  | some .call, [a] => do
    let z ← address value a
    return 0x2000#16 ||| z
  | some .se, [a, b] => skipWord value 0x5000#16 0x3000#16 a b
  | some .sne, [a, b] => skipWord value 0x9000#16 0x4000#16 a b
  | some .ld, [a, b] => loadWord value a b
  | some .add, [a, b] => addWord value a b
  | some .or, [a, b] => registerWord 1#16 a b
  | some .and, [a, b] => registerWord 2#16 a b
  | some .xor, [a, b] => registerWord 3#16 a b
  | some .sub, [a, b] => registerWord 5#16 a b
  | some .subn, [a, b] => registerWord 7#16 a b
  | some .shr, [a] => registerWord 6#16 a wordV0
  | some .shr, [a, b] => registerWord 6#16 a b
  | some .shl, [a] => registerWord 0xe#16 a wordV0
  | some .shl, [a, b] => registerWord 0xe#16 a b
  | some .rnd, [a, b] => do
    let x ← reg a
    let z ← byte value b
    return 0xc000#16 ||| atX x ||| z
  | some .drw, [a, b, c] => do
    let x ← reg a
    let y ← reg b
    let z ← immediate value c 0xf .nibbleRange
    return 0xd000#16 ||| atX x ||| atY y ||| z
  | some .skp, [a] => do return 0xe09e#16 ||| atX (← reg a)
  | some .sknp, [a] => do return 0xe0a1#16 ||| atX (← reg a)
  | some _, _ => .error (.operandCount op)
  | none, _ => .error (.unknownInstruction op)

/-! ## Lines -/

def dirOrg : Token := ['.', 'O', 'R', 'G']
def dirByte : Token := ['.', 'B', 'Y', 'T', 'E']
def dirWord : Token := ['.', 'W', 'O', 'R', 'D']

/-- The two bytes of a word, the high one first. -/
def wordBytes (w : Word) : List Byte := [(w >>> 8).setWidth 8, w.setWidth 8]

/-- The operands of `.BYTE` and `.WORD`. -/
def dataBytes (max : Nat) (problem : Nat → Problem) (emit : Nat → List Byte) :
    List Token → Except Problem (List Byte)
  | [] => .ok []
  | t :: ts => do
    let v ← value t
    range v max problem
    let rest ← dataBytes max problem emit ts
    return emit v ++ rest

def byteOf (v : Nat) : List Byte := [BitVec.ofNat 8 v]
def wordOf (v : Nat) : List Byte := wordBytes (BitVec.ofNat 16 v)

/-- `line_size`: the size it returns and the bytes it writes to `out`. -/
def lineSize (pc : Nat) : List Token → Except Problem (Nat × List Byte)
  | [] => .ok (0, [])
  | op :: args =>
    if op == dirOrg then
      match args with
      | [a] => do
        let p ← value a
        if p < entrypoint.toNat || p ≥ memorySize then throw .orgRange
        if p < pc then throw .orgBackwards
        return (p - pc, [])
      | _ => .error .orgOperands
    else if op == dirByte then
      if args.isEmpty then .error .byteOperands
      else do
        let out ← dataBytes value 0xff .byteRange byteOf args
        return (args.length, out)
    else if op == dirWord then
      if args.isEmpty then .error .wordOperands
      else do
        let out ← dataBytes value 0xffff .wordRange wordOf args
        return (2 * args.length, out)
    else do
      let w ← instruction value op args
      return (2, wordBytes w)

end

end ChipEight.Asm
