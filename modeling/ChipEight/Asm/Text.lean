import Mathlib.Algebra.Group.Nat.Defs
import Mathlib.Data.List.Basic

/-! Lines, words and numbers as asm.c reads them.

A file is a list of characters, each standing for one byte. The C library functions
are those of the `C` locale, which knows only ASCII letters, digits and blanks.
-/

set_option autoImplicit false

namespace ChipEight.Asm

abbrev Text := List Char
abbrev Token := List Char

/-- What holds of all characters of a text is decided along the text. -/
instance (priority := high) {p : Char → Prop} [DecidablePred p] (t : Text) :
    Decidable (∀ c ∈ t, p c) :=
  List.decidableBAll p t

def maxLine : Nat := 1024
def maxTokens : Nat := 260

/-! ## Characters -/

def between (lo hi c : Char) : Bool := lo.toNat ≤ c.toNat && c.toNat ≤ hi.toNat

def isspace (c : Char) : Bool := c == ' ' || between '\t' '\r' c
def isdigit (c : Char) : Bool := between '0' '9' c
def isupper (c : Char) : Bool := between 'A' 'Z' c
def islower (c : Char) : Bool := between 'a' 'z' c
def isalpha (c : Char) : Bool := isupper c || islower c
def isalnum (c : Char) : Bool := isalpha c || isdigit c
def isxdigit (c : Char) : Bool := isdigit c || between 'A' 'F' c || between 'a' 'f' c
def toupper (c : Char) : Char := if islower c then Char.ofNat (c.toNat - 32) else c

/-! ## Lines -/

/-- All the strings `fgets (line, sizeof line, fp)` returns, `cur` being read. -/
def fgetsFrom (cur : Text) : Text → List Text
  | [] => if cur.isEmpty then [] else [cur]
  | c :: cs =>
    if c == '\n' || cur.length + 2 == maxLine then (cur ++ [c]) :: fgetsFrom [] cs
    else fgetsFrom (cur ++ [c]) cs

def fgets (file : Text) : List Text := fgetsFrom [] file

/-- What the string functions see of a buffer: it ends at the first NUL. -/
def cString (s : Text) : Text := s.takeWhile (· != '\x00')

/-! ## Words -/

def isComment (c : Char) : Bool := c == ';' || c == '#'
def isBlank (c : Char) : Bool := isspace c || c == ','

/-- The loop of `tokenize`. The character that ends a word is overwritten and skipped,
a comment sign too; only a comment sign met between words ends the line. -/
def words (cur : Token) : Text → List Token
  | [] => if cur.isEmpty then [] else [cur]
  | c :: cs =>
    if cur.isEmpty then
      if isComment c then []
      else if isBlank c then words [] cs
      else words [c] cs
    else if isBlank c || isComment c then cur :: words [] cs
    else words (cur ++ [c]) cs

/-- `normalize`. -/
def normalize (t : Token) : Token := t.map toupper

/-- `tokenize` on a line; `none` is "too many tokens". -/
def tokenize (line : Text) : Option (List Token) :=
  let ts := words [] (cString line)
  if ts.length > maxTokens then none else some (ts.map normalize)

/-! ## Numbers -/

def digitValue (c : Char) : Option Nat :=
  if isdigit c then some (c.toNat - '0'.toNat)
  else if isupper c then some (c.toNat - 'A'.toNat + 10)
  else if islower c then some (c.toNat - 'a'.toNat + 10)
  else none

/-- The digits of a number read so far are worth `n`. -/
def numeralFrom (base n : Nat) : Text → Option Nat
  | [] => some n
  | c :: cs =>
    match digitValue c with
    | some d => if d < base then numeralFrom base (n * base + d) cs else none
    | none => none

/-- A whole word of at least one digit. -/
def numeral (base : Nat) (s : Text) : Option Nat :=
  if s.isEmpty then none else numeralFrom base 0 s

/-- The magnitude `strtoul` reads with base 0 from a word without its sign. -/
def magnitude : Text → Option Nat
  | '0' :: 'x' :: s => numeral 16 s
  | '0' :: 'X' :: s => numeral 16 s
  | '0' :: s => numeral 8 ('0' :: s)
  | s => numeral 10 s

def ulongMax : Nat := 2 ^ 64 - 1

/-- `strtoul (s, &end, 0)` where it reads the whole word and leaves `errno` alone. A
minus sign negates in `unsigned long`. -/
def strtoul (s : Token) : Option Nat :=
  match s with
  | '-' :: s => (magnitude s).bind fun n =>
    if n > ulongMax then none else some ((ulongMax + 1 - n) % (ulongMax + 1))
  | '+' :: s => (magnitude s).bind fun n => if n > ulongMax then none else some n
  | s => (magnitude s).bind fun n => if n > ulongMax then none else some n

example : strtoul "0X2AB".toList = some 0x2ab := by decide
example : words [] "LD V1,5;x".toList = ["LD".toList, "V1".toList, "5".toList, "x".toList] := by
  decide

end ChipEight.Asm
