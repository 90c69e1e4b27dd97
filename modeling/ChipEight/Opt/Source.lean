import ChipEight.Asm.Text

/-! The front end of chip8opt.py.

A `str` is a list of characters; chip8-asm reads the bytes of its UTF-8 encoding. What
Python's `upper ()` and `int ()` do beyond ASCII is left to a parameter.
-/

set_option autoImplicit false

namespace ChipEight.Opt

open Asm (Text Token)

/-- The Unicode tables of Python. -/
structure Unicode where
  /-- `c.upper ()`. -/
  upper : Char → Text
  /-- The value of a decimal digit, which `int ()` reads in any script. -/
  decimal : Char → Option Nat
  upperAscii : ∀ c : Char, c.toNat < 128 → upper c = [Asm.toupper c]
  decimalAscii : ∀ c : Char, c.toNat < 128 →
    decimal c = if Asm.isdigit c then some (c.toNat - '0'.toNat) else none

/-- The tables without anything beyond ASCII. -/
def ascii : Unicode where
  upper c := [Asm.toupper c]
  decimal c := if Asm.isdigit c then some (c.toNat - '0'.toNat) else none
  upperAscii _ _ := rfl
  decimalAscii _ _ := rfl

/-! ## The file -/

/-- The bytes of a character in UTF-8, as chip8-asm reads them. -/
def utf8 (c : Char) : Text :=
  let n := c.toNat
  if n < 0x80 then [c]
  else if n < 0x800 then [Char.ofNat (0xc0 + n / 64), Char.ofNat (0x80 + n % 64)]
  else if n < 0x10000 then
    [Char.ofNat (0xe0 + n / 4096), Char.ofNat (0x80 + n / 64 % 64), Char.ofNat (0x80 + n % 64)]
  else
    [Char.ofNat (0xf0 + n / 262144), Char.ofNat (0x80 + n / 4096 % 64),
      Char.ofNat (0x80 + n / 64 % 64), Char.ofNat (0x80 + n % 64)]

def encode (text : Text) : Text := text.flatMap utf8

/-! ## `splitlines`, `split` and `int` -/

def isLineBreak (c : Char) : Bool :=
  [0x0a, 0x0b, 0x0c, 0x0d, 0x1c, 0x1d, 0x1e, 0x85, 0x2028, 0x2029].contains c.toNat

/-- `text.splitlines ()`, `cur` being read. -/
def splitlinesFrom (cur : Text) : Text → List Text
  | [] => if cur.isEmpty then [] else [cur]
  | '\r' :: '\n' :: cs => cur :: splitlinesFrom [] cs
  | c :: cs => if isLineBreak c then cur :: splitlinesFrom [] cs else splitlinesFrom (cur ++ [c]) cs

def splitlines (text : Text) : List Text := splitlinesFrom [] text

/-- What `split ()` splits at. -/
def isWhitespace (c : Char) : Bool :=
  let n := c.toNat
  (0x09 ≤ n && n ≤ 0x0d) || (0x1c ≤ n && n ≤ 0x20) || n == 0x85 || n == 0xa0 || n == 0x1680 ||
    (0x2000 ≤ n && n ≤ 0x200a) || n == 0x2028 || n == 0x2029 || n == 0x202f || n == 0x205f ||
    n == 0x3000

/-- `line.split ()`. -/
def splitFrom (cur : Token) : Text → List Token
  | [] => if cur.isEmpty then [] else [cur]
  | c :: cs =>
    if isWhitespace c then
      if cur.isEmpty then splitFrom [] cs else cur :: splitFrom [] cs
    else splitFrom (cur ++ [c]) cs

def tokens (line : Text) : List Token :=
  let line := (line.takeWhile (· != ';')).takeWhile (· != '#')
  splitFrom [] (line.map fun c => if c == ',' then ' ' else c)

section
variable (U : Unicode)

def upper (t : Token) : Token := t.flatMap U.upper

/-- A digit in a base: a decimal digit of any script or an ASCII letter. -/
def digit (base : Nat) (c : Char) : Option Nat :=
  let d := match U.decimal c with
    | some d => some d
    | none => Asm.digitValue c
  d.filter (· < base)

/-- The rest of a numeral; an underscore may stand between two digits. -/
def digitsFrom (base n : Nat) : Text → Option Nat
  | [] => some n
  | '_' :: c :: cs => (digit U base c).bind fun d => digitsFrom base (n * base + d) cs
  | c :: cs => (digit U base c).bind fun d => digitsFrom base (n * base + d) cs

def digits (base : Nat) : Text → Option Nat
  | [] => none
  | c :: cs => (digit U base c).bind fun d => digitsFrom U base d cs

/-- The prefix `int ()` allows in a base, and an underscore behind it. -/
def dropPrefix (base : Nat) (s : Text) : Text :=
  let skip : Text → Text
    | '_' :: s => s
    | s => s
  match base, s with
  | 16, '0' :: 'x' :: s => skip s
  | 16, '0' :: 'X' :: s => skip s
  | 8, '0' :: 'o' :: s => skip s
  | 8, '0' :: 'O' :: s => skip s
  | _, s => s

/-- `int (s, base)` on a word, without blanks around it. -/
def int (base : Nat) : Text → Option Int
  | '-' :: s => (digits U base (dropPrefix base s)).map fun n => -(n : Int)
  | '+' :: s => (digits U base (dropPrefix base s)).map Int.ofNat
  | s => (digits U base (dropPrefix base s)).map Int.ofNat

/-- `parse_number`; `None` where `int ()` raises `ValueError`. -/
def parseNumber (word : Token) : Option Int :=
  match word with
  | '0' :: 'x' :: s => int U 16 s
  | '0' :: 'X' :: s => int U 16 s
  | '0' :: c :: s => int U 8 ('0' :: c :: s)
  | s => int U 10 s

end

/-! ## Statements -/

structure Statement where
  line : Nat
  label : Option Token
  op : Option Token
  args : List Token
  pc : Nat
  size : Nat
  deriving DecidableEq, Repr

/-- The `ValueError`s of `parse_source`, each with its line. -/
inductive SourceError where
  | emptyLabel (line : Nat)
  | duplicateLabel (line : Nat) (label : Token)
  | invalidOrg (line : Nat)
  | invalidOrgTarget (line : Nat)
  | tooLarge (line : Nat)
  deriving DecidableEq, Repr

abbrev Labels := List (Token × Nat)

structure Parsed where
  statements : List Statement
  labels : Labels
  pc : Nat
  deriving DecidableEq, Repr

def entry : Nat := 0x200
def limit : Nat := 0x1000

def opOrg : Token := ['.', 'O', 'R', 'G']
def opByte : Token := ['.', 'B', 'Y', 'T', 'E']
def opWord : Token := ['.', 'W', 'O', 'R', 'D']

section
variable (U : Unicode)

/-- A label at the start of a line, and the words behind it. -/
def splitLabel (words : List Token) : Option Token × List Token :=
  match words with
  | [] => (none, [])
  | w :: rest => if w.getLast? == some ':' then (some (upper U w.dropLast), rest) else (none, words)

def addLabel (lineNo : Nat) (st : Parsed) : Option Token → Except SourceError Labels
  | none => .ok st.labels
  | some label =>
    if label.isEmpty then .error (.emptyLabel lineNo)
    else if (st.labels.lookup label).isSome then .error (.duplicateLabel lineNo label)
    else .ok (st.labels ++ [(label, st.pc)])

/-- `stmt.size`. -/
def sizeOf (lineNo pc : Nat) (op : Option Token) (args : List Token) : Except SourceError Nat :=
  match op with
  | none => .ok 0
  | some op =>
    if op == opOrg then
      match args with
      | [a] =>
        match parseNumber U a with
        | none => .error (.invalidOrg lineNo)
        | some target =>
          if target < pc || !((entry : Int) ≤ target && target < limit) then
            .error (.invalidOrgTarget lineNo)
          else .ok (target.toNat - pc)
      | _ => .error (.invalidOrg lineNo)
    else if op == opByte then .ok args.length
    else if op == opWord then .ok (2 * args.length)
    else .ok 2

/-- The body of the loop of `parse_source`. -/
def parseLine (st : Parsed) (numbered : Nat × Text) : Except SourceError Parsed := do
  let lineNo := numbered.1
  let words := tokens numbered.2
  if words.isEmpty then return st
  let (label, rest) := splitLabel U words
  let labels ← addLabel lineNo st label
  let op := rest.head?.map (upper U)
  let args := rest.tail.map (upper U)
  let size ← sizeOf U lineNo st.pc op args
  if st.pc + size > limit then throw (.tooLarge lineNo)
  return ⟨st.statements ++ [⟨lineNo, label, op, args, st.pc, size⟩], labels, st.pc + size⟩

def parseSource (text : Text) : Except SourceError (List Statement × Labels) := do
  let numbered := (splitlines text).zipIdx.map fun r => (r.2 + 1, r.1)
  let st ← numbered.foldlM (parseLine U) ⟨[], [], entry⟩
  return (st.statements, st.labels)

end

/-! ## Canonical text -/

/-- `", ".join (words)`. -/
def joinComma : List Token → Text
  | [] => []
  | [w] => w
  | w :: w' :: rest => w ++ ',' :: ' ' :: joinComma (w' :: rest)

/-- `if s.label` and `if s.op`: there, and not empty. -/
def present (t : Option Token) : Option Token := t.filter (!·.isEmpty)

def statementLines (s : Statement) : List Text :=
  (match present s.label with
    | some label => [label ++ [':']]
    | none => []) ++
  match present s.op with
  | some op => [List.replicate 8 ' ' ++ op ++
      if (joinComma s.args).isEmpty then [] else ' ' :: joinComma s.args]
  | none => []

/-- `"\n".join (lines)`. -/
def joinLines : List Text → Text
  | [] => []
  | [l] => l
  | l :: l' :: rest => l ++ '\n' :: joinLines (l' :: rest)

def canonicalize (statements : List Statement) : Text :=
  joinLines (statements.flatMap statementLines) ++ ['\n']

example : (parseSource ascii "a: jp A ; x\n.byte 1,2".toList).map (canonicalize ·.1) =
    .ok "A:\n        JP A\n        .BYTE 1, 2\n".toList := by decide

end ChipEight.Opt
