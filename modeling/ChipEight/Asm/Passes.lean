import ChipEight.Asm.Encode

/-! The two passes of the assembler's `main`. -/

set_option autoImplicit false

namespace ChipEight.Asm

/-- A `fail` with the line it reports. -/
structure Failure where
  lineNumber : Nat
  problem : Problem
  deriving DecidableEq, Repr

/-- Words of a line, apart from a label at its start. -/
structure Line where
  label : Option Token
  statement : List Token
  deriving DecidableEq, Repr

/-- `t[0][strlen (t[0]) - 1] == ':'` takes the first word as a label. -/
def splitLabel : List Token → Line
  | [] => ⟨none, []⟩
  | t :: ts => if t.getLast? == some ':' then ⟨some t.dropLast, ts⟩ else ⟨none, t :: ts⟩

def readLine (line : Text) : Except Problem Line :=
  match tokenize line with
  | some ts => .ok (splitLabel ts)
  | none => .error .tooManyTokens

structure Layout where
  symbols : List Symbol
  pc : Nat
  deriving DecidableEq, Repr

def Layout.start : Layout := ⟨[], entrypoint.toNat⟩

def defineLabel (st : Layout) : Option Token → Except Problem (List Symbol)
  | some name => define st.symbols name st.pc
  | none => .ok st.symbols

/-- A line of the first pass, once it is split into words. -/
def layoutLine (st : Layout) (l : Line) : Except Problem Layout := do
  let symbols ← defineLabel st l.label
  let (size, _) ← lineSize (value symbols false) st.pc l.statement
  if st.pc + size > memorySize then throw .memoryFull
  return ⟨symbols, st.pc + size⟩

/-- What the second pass has written, and its `pc`. -/
structure Output where
  pc : Nat
  bytes : List Byte
  deriving DecidableEq, Repr

def Output.start : Output := ⟨entrypoint.toNat, []⟩

/-- A line of the second pass: the bytes of the line, or zeros for `.ORG`. -/
def emitLine (symbols : List Symbol) (st : Output) (l : Line) : Except Problem Output := do
  let (size, out) ← lineSize (value symbols true) st.pc l.statement
  let bytes := if l.statement.head? == some dirOrg then List.replicate size 0#8 else out
  return ⟨st.pc + size, st.bytes ++ bytes⟩

/-- A loop over the lines `fgets` returns, numbered from `lineNumber`. -/
def eachLine {S : Type} (step : S → Line → Except Problem S) (lineNumber : Nat) (st : S) :
    List Text → Except Failure S
  | [] => .ok st
  | text :: rest =>
    match readLine text with
    | .error p => .error ⟨lineNumber, p⟩
    | .ok l =>
      match step st l with
      | .error p => .error ⟨lineNumber, p⟩
      | .ok st => eachLine step (lineNumber + 1) st rest

def firstPass (file : Text) : Except Failure Layout :=
  eachLine layoutLine 1 .start (fgets file)

def secondPass (symbols : List Symbol) (file : Text) : Except Failure Output :=
  eachLine (emitLine symbols) 1 .start (fgets file)

/-- `main` on the contents of a file: the bytes of standard output. -/
def assemble (file : Text) : Except Failure (List Byte) := do
  let layout ← firstPass file
  let output ← secondPass layout.symbols file
  return output.bytes

example : assemble "a: JP b\n.org 0x204\nb: .byte 7".toList = .ok [0x12, 0x04, 0, 0, 7] := by
  decide +kernel

end ChipEight.Asm
