import ChipEight.Asm.Passes
import ChipEight.Disas.Print
import ChipEight.Opt.Analyze

/-! `optimize_peepholes` of chip8opt.py.

A `set` is a list or a predicate. The problems of a refused program are not put in the order
of their texts; nothing depends on it.
-/

set_option autoImplicit false

namespace ChipEight.Opt

open Asm (Text Token Mnemonic wordI wordK)
open Disas (hex number)

def isOp (s : Statement) (m : Mnemonic) : Bool := s.op == some m.text

/-- `s.op in {"JP", "CALL"}` or `LD I`. -/
def isReference (s : Statement) : Bool :=
  isOp s .jp || isOp s .call ||
    isOp s .ld && s.args.length == 2 && s.args.head? == some wordI

section
variable (U : Unicode)

/-- `parse_number (s.args[-1]) is not None`, where there are operands. -/
def numericLast (s : Statement) : Bool := (s.args.getLast?.bind (parseNumber U)).isSome

/-! ## Symbolic addresses -/

/-- `f"ADDR{value:03X}"` -/
def addressName (value : Nat) : Token := ['A', 'D', 'D', 'R'] ++ hex 3 value

/-- `labels[name] = value` -/
def assign (labels : Labels) (name : Token) (value : Nat) : Labels :=
  if (labels.lookup name).isSome then
    labels.map fun r => if r.1 == name then (name, value) else r
  else labels ++ [(name, value)]

/-- The first label with an address. -/
def labelOf (labels : Labels) (address : Nat) : Option Token :=
  (labels.find? fun r => r.2 == address).map Prod.fst

/-- The address a statement refers to by its number, if a statement begins there. -/
def numericReference (statements : List Statement) (labels : Labels) (s : Statement) :
    Option Nat :=
  if isReference s && numericLast U s then
    match target U labels s with
    | none => none
    | some value =>
      if (entry : Int) ≤ value && value < payloadEnd statements &&
          statements.any (fun r => (r.pc : Int) == value) then some value.toNat
      else none
  else none

/-- The keys of `generated`. -/
def generated (statements : List Statement) (labels : Labels) : List Nat :=
  statements.filterMap (numericReference U statements labels)

/-- The last operand becomes a name. -/
def withLast (s : Statement) (name : Token) : Statement :=
  { s with args := s.args.dropLast ++ [name] }

/-- The copy of a statement, with a generated address replaced by its label. -/
def symbolizeOperand (made : List Nat) (labels newLabels : Labels) (s : Statement) : Statement :=
  if (present s.op).isSome && numericLast U s then
    match target U labels s with
    | none => s
    | some value =>
      if 0 ≤ value && made.contains value.toNat then
        withLast s ((labelOf newLabels value.toNat).getD (addressName value.toNat))
      else s
  else s

/-- The second loop of `symbolize_in_rom_addresses`. -/
def symbolizeFrom (made : List Nat) (labels : Labels) :
    Labels → List Statement → List Statement × Labels
  | newLabels, [] => ([], newLabels)
  | newLabels, s :: rest =>
    let existing := present (labelOf labels s.pc)
    let name := existing.getD (addressName s.pc)
    let named := made.contains s.pc
    let newLabels := if named then assign newLabels name s.pc else newLabels
    let r := symbolizeFrom made labels newLabels rest
    let copied := symbolizeOperand U made labels newLabels s
    if named && existing.isNone then
      (⟨s.line, some name, none, [], s.pc, 0⟩ :: copied :: r.1, r.2)
    else (copied :: r.1, r.2)

/-- `symbolize_in_rom_addresses`. -/
def symbolize (statements : List Statement) (labels : Labels) : List Statement × Labels :=
  symbolizeFrom U (generated U statements labels) labels labels statements

/-! ## Refusals -/

/-- `access.kind.startswith ("dynamic-")` -/
def AccessKind.isDynamic : AccessKind → Bool
  | .dynamicRead => true
  | .dynamicWrite => true
  | _ => false

/-- `dynamic_base_boundaries`. -/
def dynamicBaseBoundaries (a : Analysis) : List Int :=
  a.accesses.filterMap fun access => if access.kind.isDynamic then access.start else none

inductive Problem where
  | hazard (h : Hazard)
  | fixedLayout (pc : Nat)     -- "0x%03X: .ORG fixes layout"
  | numericAddress (pc : Nat)  -- "0x%03X: numeric in-ROM address"
  deriving DecidableEq, Repr

/-- The text of a hazard. -/
def Hazard.text : Hazard → Text
  | .computedJump pc => number 3 pc ++ ": computed JP V0".toList
  | .unresolvedJump pc => number 3 pc ++ ": unresolved JP target".toList
  | .unresolvedCall pc => number 3 pc ++ ": unresolved CALL target".toList
  | .deepStack pc => number 3 pc ++ ": call stack exceeds 16 levels".toList
  | .dynamicI pc reason => number 3 pc ++ (": dynamic I for ".toList ++ reason.toList)
  | .payloadWrite pc start =>
    number 3 pc ++ (": write into ROM payload at ".toList ++ number 3 start.toNat)
  | .selfModifying pc code =>
    number 3 pc ++ (": possible self-modifying write at ".toList ++ number 3 code)

/-- `part in h` -/
def Hazard.mentions (h : Hazard) (part : String) : Bool := part.toList <:+: h.text

/-- The hazards that are problems, chosen by their texts. -/
def Hazard.chosen (proven : List Nat) (h : Hazard) : Bool :=
  h.mentions "dynamic I" &&
      !(proven.any fun pc => int U 16 ((h.text.drop 2).take 3) == some (pc : Int)) ||
    h.mentions "self-modifying" || h.mentions "computed JP"

/-- The hazards that are problems, apart from instructions with a proven dynamic base. -/
def Hazard.blocks (proven : List Nat) : Hazard → Bool
  | .dynamicI pc _ => !proven.contains pc
  | .selfModifying _ _ => true
  | .computedJump _ => true
  | _ => false

def statementProblems (statements : List Statement) (labels : Labels) (s : Statement) :
    List Problem :=
  let value := (target U labels s).getD 0
  (if s.op == some opOrg then [.fixedLayout s.pc] else []) ++
  if isReference s && numericLast U s && (entry : Int) ≤ value && value < payloadEnd statements then
    [.numericAddress s.pc]
  else []

/-- `relocation_hazards`, after the analysis. -/
def relocationHazards (statements : List Statement) (labels : Labels) (a : Analysis) :
    List Problem :=
  let proven := (a.accesses.filter fun access => access.kind.isDynamic).map Access.pc
  (a.hazards.filter (Hazard.blocks proven)).map Problem.hazard ++
    statements.flatMap (statementProblems U statements labels)

/-- `protected_pcs`. -/
def protectedPcs (statements : List Statement) (labels : Labels) : List Int :=
  ((entry : Int) :: labels.map fun r => (r.2 : Int)) ++ statements.flatMap fun s =>
    (if (isOp s .jp || isOp s .call) && !(isOp s .jp && s.args.length == 2) then
      (target U labels s).toList
    else []) ++
    if isSkip s then [(s.pc : Int) + 2, (s.pc : Int) + 4] else []

/-- `protected` in `optimize_peepholes`. -/
def keeps (statements : List Statement) (labels : Labels) (a : Analysis) (pc : Nat) : Bool :=
  (protectedPcs U statements labels).contains (pc : Int) ||
    (dynamicBaseBoundaries a).any fun base => base ≤ (pc : Int)

/-! ## Rewrites -/

/-- The rewrites, with the sum of a folded `LD` and `ADD`. -/
inductive Rule where
  | fold (total : Nat)
  | tailCall
  | noop
  | overwritten
  | keep
  deriving DecidableEq, Repr

def twoOperands (s : Statement) : Option (Token × Token) :=
  match s.args with
  | [a, b] => some (a, b)
  | _ => none

/-- `LD Vx, kk; ADD Vx, kk`, and the sum. -/
def folds (free : Nat → Bool) (s t : Statement) : Option Nat :=
  if isOp s .ld && isOp t .add then
    match twoOperands s, twoOperands t with
    | some (a, b), some (c, d) =>
      if isRegister a && a == c && t.label.isNone && free t.pc then
        match parseNumber U b, parseNumber U d with
        | some m, some n => some ((m + n) % 256).toNat
        | _, _ => none
      else none
    | _, _ => none
  else none

def isTailCall (labels : Labels) (s t : Statement) : Bool :=
  isOp s .call && isOp t .ret && s.args.length == 1 && (target U labels s).isSome

def isNoop (s : Statement) : Bool :=
  match twoOperands s with
  | some (a, b) => isOp s .ld && a == b ||
      isOp s .add && isRegister a && parseNumber U b == some 0
  | none => false

/-- `LD x, ...; LD x, ...` of a register or I, but not `LD Vx, K`. -/
def isOverwritten (s t : Statement) : Bool :=
  match twoOperands s, twoOperands t with
  | some (a, b), some (c, _) => isOp s .ld && isOp t .ld && a == c && (a == wordI || isRegister a) &&
      b != wordK
  | _, _ => false

/-- The rewrite at a statement; `free` says that nothing keeps an address. -/
def ruleAt (labels : Labels) (free : Nat → Bool) (s : Statement) (next : Option Statement) : Rule :=
  match next.bind (folds U free s) with
  | some total => .fold total
  | none =>
    if next.any (isTailCall U labels s) then .tailCall
    else if isNoop U s && s.label.isNone && free s.pc then .noop
    else if next.any (isOverwritten s) && s.label.isNone && free s.pc then .overwritten
    else .keep

/-- `f"0x{total:02X}"` -/
def byteText (total : Nat) : Token := '0' :: 'x' :: hex 2 total

/-- What a rewrite puts in the place of a statement. -/
def Rule.image (s : Statement) : Rule → List Statement
  | .fold total => [⟨s.line, s.label, some Mnemonic.ld.text,
      [s.args.headD [], byteText total], s.pc, 2⟩]
  | .tailCall => [⟨s.line, s.label, some Mnemonic.jp.text, s.args, s.pc, 2⟩]
  | .noop => []
  | .overwritten => []
  | .keep => [s]

/-- The entries of `changes`; the texts are those of chip8opt.py. -/
structure Change where
  pc : Nat
  rule : Rule
  op : Option Token
  operand : Option Token
  deriving DecidableEq, Repr

def Rule.change (s : Statement) : Rule → List Change
  | .keep => []
  | rule => [⟨s.pc, rule, s.op, s.args.head?⟩]

/-- The loop of `optimize_peepholes`. -/
def rewrite (labels : Labels) (free : Nat → Bool) : List Statement → List Statement × List Change
  | [] => ([], [])
  | [s] =>
    let rule := ruleAt U labels free s none
    (rule.image s, rule.change s)
  | s :: t :: rest =>
    let rule := ruleAt U labels free s (some t)
    let r := match rule with
      | .fold _ => rewrite labels free rest
      | _ => rewrite labels free (t :: rest)
    (rule.image s ++ r.1, rule.change s ++ r.2)

inductive Refused where
  | raised                                  -- an exception of `analyze`
  | cannotCompact (problems : List Problem)  -- "cannot compact safely: "
  deriving DecidableEq, Repr

/-- `optimize_peepholes`. -/
def optimizePeepholes (statements : List Statement) (labels : Labels) :
    Except Refused (List Statement × List Change) :=
  let program := symbolize U statements labels
  match analyze U program.2 program.1 with
  | none => .error .raised
  | some a =>
    let problems := relocationHazards U program.1 program.2 a
    if problems.isEmpty then
      .ok (rewrite U program.2 (fun pc => !keeps U program.1 program.2 a pc) program.1)
    else .error (.cannotCompact problems)

end

end ChipEight.Opt
