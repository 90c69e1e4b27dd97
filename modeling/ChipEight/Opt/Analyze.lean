import ChipEight.Asm.Encode
import ChipEight.Library.Worklist
import ChipEight.Opt.Source
import Mathlib.Data.Fintype.Pi

/-! `analyze` of chip8opt.py.

The sets of an `Analysis` are lists without repetitions. Where Python would raise, at
`int ()` or at an index, the result is `none`.
-/

set_option autoImplicit false

namespace ChipEight.Opt

open Asm (Text Token Mnemonic startsWithV wordI wordF wordB wordMemory)

/-- CHIP-8 font memory; never part of an assembled ROM payload. -/
def externalI : Int := -1

section
variable (U : Unicode) (labels : Labels)

def resolve (word : Token) : Option Int :=
  match labels.lookup (upper U word) with
  | some address => some address
  | none => parseNumber U word

def target (stmt : Statement) : Option Int := stmt.args.getLast?.bind (resolve U labels)

end

def isSkip (stmt : Statement) : Bool :=
  [Mnemonic.se, .sne, .skp, .sknp].any fun m => stmt.op == some m.text

/-! ## Hazards and accesses -/

/-- The hazards, each with the addresses in its text. -/
inductive Hazard where
  | computedJump (pc : Nat)                    -- "0x%03X: computed JP V0"
  | unresolvedJump (pc : Nat)                  -- "0x%03X: unresolved JP target"
  | unresolvedCall (pc : Nat)                  -- "0x%03X: unresolved CALL target"
  | deepStack (pc : Nat)                       -- "0x%03X: call stack exceeds 16 levels"
  | dynamicI (pc : Nat) (reason : String)      -- "0x%03X: dynamic I for %s"
  | payloadWrite (pc : Nat) (start : Int)      -- "0x%03X: write into ROM payload at 0x%03X"
  | selfModifying (pc code : Nat)              -- "0x%03X: possible self-modifying write at 0x%03X"
  deriving DecidableEq, Repr

inductive AccessKind where
  | read
  | write
  | dynamicRead
  | dynamicWrite
  deriving DecidableEq, Repr

/-- `f"dynamic-{kind}"`. -/
def AccessKind.dynamic : AccessKind → AccessKind
  | .read => .dynamicRead
  | .write => .dynamicWrite
  | kind => kind

structure Access where
  pc : Nat
  kind : AccessKind
  start : Option Int
  length : Option Int
  reason : String
  deriving DecidableEq, Repr

structure Analysis where
  reachable : List Nat
  leaders : List Nat
  edges : List (Nat × Nat)
  accesses : List Access
  hazards : List Hazard
  deriving DecidableEq, Repr

def Analysis.addHazard (a : Analysis) (h : Hazard) : Analysis :=
  { a with hazards := a.hazards.insert h }

def dynamicBase (base : Int) : Int := -(base + 2)

def isDynamicBase : Option Int → Bool
  | none => false
  | some value => value ≤ -2

def decodeDynamicBase (value : Int) : Int := -value - 2

def addAccess (access : Access) (a : Analysis) : Analysis :=
  match access.start with
  | none =>
    ({ a with accesses := a.accesses ++ [access] }).addHazard (.dynamicI access.pc access.reason)
  | some start =>
    if start == externalI then a
    else if isDynamicBase (some start) then
      let dynamic := { access with
        kind := access.kind.dynamic
        start := some (decodeDynamicBase start) }
      { a with accesses := a.accesses ++ [dynamic] }
    else { a with accesses := a.accesses ++ [access] }

/-! ## The abstract domain -/

/-- The `State` of `analyze`: what is known of I and of the registers. -/
@[ext] structure Constants where
  i : Option Int
  regs : Fin 16 → Option Int

instance : DecidableEq Constants := fun σ τ =>
  decidable_of_iff (σ.i = τ.i ∧ σ.regs = τ.regs) Constants.ext_iff.symm

def Constants.initial : Constants := ⟨none, fun _ => none⟩

/-- A disagreeing constant becomes unknown. -/
def joinValue (a b : Option Int) : Option Int := if a = b then a else none

def Constants.join (old new : Constants) : Constants :=
  ⟨joinValue old.i new.i, fun x => joinValue (old.regs x) (new.regs x)⟩

def Constants.setReg (σ : Constants) (x : Fin 16) (v : Option Int) : Constants :=
  { σ with regs := Function.update σ.regs x v }

/-! ## Transfer -/

def isRegister (word : Token) : Bool :=
  match word with
  | ['V', c] => "0123456789ABCDEF".toList.contains c
  | _ => false

/-- An access a statement makes, without its address. -/
structure Request where
  kind : AccessKind
  start : Option Int
  length : Option Int
  reason : String
  deriving DecidableEq, Repr

section
variable (U : Unicode) (labels : Labels)

/-- `int (word[1], 16)` as a subscript of `regs`. -/
def registerIndex (word : Token) : Option (Fin 16) :=
  match word with
  | _ :: c :: _ => (int U 16 [c]).bind fun n =>
    if small : n.toNat < 16 then some ⟨n.toNat, small⟩ else none
  | _ => none

/-- `resolve (word) if not word.startswith ("V") else regs[int (word[1], 16)]`. -/
def operandValue (σ : Constants) (word : Token) : Option (Option Int) :=
  if startsWithV word then (registerIndex U word).map σ.regs else some (resolve U labels word)

/-- `LD` with two operands. -/
def transferLoad (a b : Token) (σ : Constants) : Option (Constants × List Request) :=
  if a == wordI then some ({ σ with i := resolve U labels b }, [])
  else if isRegister a then do
    let x ← registerIndex U a
    let v ← operandValue U labels σ b
    return (σ.setReg x v, [])
  else if a == wordF then some ({ σ with i := some externalI }, [])
  else if a == wordB && startsWithV b then
    some (σ, [⟨.write, σ.i, some 3, "BCD store"⟩])
  else if a == wordMemory && startsWithV b then do
    let x ← registerIndex U b
    return (σ, [⟨.write, σ.i, some (x.val + 1), "register store"⟩])
  else if b == wordMemory && startsWithV a then do
    let x ← registerIndex U a
    return (σ, [⟨.read, σ.i, some (x.val + 1), "register load"⟩])
  else some (σ, [])

/-- `ADD I, Vx`: a base and an unknown offset become a dynamic base. -/
def addToI (i value : Option Int) : Option Int :=
  match i with
  | none => none
  | some base =>
    if isDynamicBase i then i
    else match value with
      | none => some (dynamicBase base)
      | some v => some (base + v)

/-- `ADD` with two operands. -/
def transferAdd (a b : Token) (σ : Constants) : Option (Constants × List Request) :=
  if a == wordI then do
    let value ← if startsWithV b then (registerIndex U b).map σ.regs else some none
    return ({ σ with i := addToI σ.i value }, [])
  else if startsWithV a then do
    let x ← registerIndex U a
    let value ← operandValue U labels σ b
    let sum := match σ.regs x, value with
      | some m, some n => some ((m + n) % 256)
      | _, _ => none
    return (σ.setReg x sum, [])
  else some (σ, [])

/-- Instructions with an unknown result. -/
def clobbers : List Mnemonic := [.rnd, .or, .and, .xor, .sub, .subn, .shr, .shl]

/-- The state behind a statement, and what it accesses. -/
def transfer (stmt : Statement) (σ : Constants) : Option (Constants × List Request) := do
  let r ← match stmt.args with
    | [a, b] =>
      if stmt.op == some Mnemonic.ld.text then transferLoad U labels a b σ
      else if stmt.op == some Mnemonic.add.text then transferAdd U labels a b σ
      else some (σ, [])
    | [_, _, c] =>
      if stmt.op == some Mnemonic.drw.text then
        some (σ, [⟨.read, σ.i, resolve U labels c, "sprite read"⟩])
      else some (σ, [])
    | _ => some (σ, [])
  match stmt.args with
  | a :: _ =>
    if (clobbers.any fun m => stmt.op == some m.text) && startsWithV a then do
      let x ← registerIndex U a
      return (r.1.setReg x none, r.2)
    else return r
  | [] => return r

/-! ## Control flow -/

/-- Addresses, and the hazards met when looking for them. -/
def successors (stmt : Statement) : List Int × List Hazard :=
  let fall : Int := stmt.pc + 2
  if stmt.op == some Mnemonic.ret.text then ([], [])
  else if stmt.op == some Mnemonic.jp.text then
    if stmt.args.length == 2 then ([], [.computedJump stmt.pc])
    else match target U labels stmt with
      | none => ([], [.unresolvedJump stmt.pc])
      | some dest => ([dest], [])
  else if stmt.op == some Mnemonic.call.text then
    match target U labels stmt with
    | none => ([fall], [.unresolvedCall stmt.pc])
    | some dest => ([dest, fall], [])
  else if isSkip stmt then ([fall, fall + 2], [])
  else ([fall], [])

/-- A context includes the CHIP-8 return stack, its top last. -/
abbrev Context := Nat × List Nat

def maxReturns : Nat := 16

def transitions (stmt : Statement) (returns : List Nat) :
    List (Int × List Nat) × List Hazard :=
  if stmt.op == some Mnemonic.call.text then
    match target U labels stmt with
    | none => ([], [.unresolvedCall stmt.pc])
    | some dest =>
      if returns.length ≥ maxReturns then ([], [.deepStack stmt.pc])
      else ([(dest, returns ++ [stmt.pc + 2])], [])
  else if stmt.op == some Mnemonic.ret.text then
    match returns.getLast? with
    | none => ([], [])
    | some dest => ([((dest : Int), returns.dropLast)], [])
  else
    let r := successors U labels stmt
    (r.1.map fun dest => (dest, returns), r.2)

/-- `if s.op and not s.op.startswith (".")`. -/
def isInstruction (stmt : Statement) : Bool :=
  match stmt.op with
  | some (c :: _) => c != '.'
  | _ => false

/-- `instruction_map`; a later statement takes the place of an earlier one. -/
def instructionAt (statements : List Statement) (pc : Nat) : Option Statement :=
  statements.reverse.find? fun s => s.pc == pc && isInstruction s

/-- `ENTRY <= dest < LIMIT`. -/
def inMemory (dest : Int) : Bool := (entry : Int) ≤ dest && dest < limit

/-! ## The worklist -/

variable (statements : List Statement)

/-- What a context passes on, and to which contexts. -/
def passOn (context : Context) (σ : Constants) : Option (List (Context × Constants)) :=
  match instructionAt statements context.1 with
  | none => some []
  | some stmt => do
    let r ← transfer U labels stmt σ
    let next := (transitions U labels stmt context.2).1.filter fun t => inMemory t.1
    return next.map fun t => ((t.1.toNat, t.2), r.1)

def flow : Worklist.Flow Context Constants := ⟨Constants.join, passOn U labels statements⟩

structure Progress where
  table : Worklist.Table Context Constants
  result : Analysis

def Progress.start : Progress :=
  ⟨⟨Function.update (fun _ => none) (entry, []) (some .initial), [(entry, [])]⟩,
    ⟨[], [entry], [], [], []⟩⟩

/-- What a visit adds to the result. -/
def record (context : Context) (σ : Constants) (a : Analysis) : Analysis :=
  match instructionAt statements context.1 with
  | none => a
  | some stmt =>
    let pc := context.1
    let requests := (transfer U labels stmt σ).elim [] Prod.snd
    let r := transitions U labels stmt context.2
    let next := (r.1.map Prod.fst).filter inMemory
    let a := { a with reachable := a.reachable.insert pc }
    let a := requests.foldl (fun a q => addAccess ⟨pc, q.kind, q.start, q.length, q.reason⟩ a) a
    let a := r.2.foldl Analysis.addHazard a
    { a with
      edges := next.foldl (fun es dest => es.insert (pc, dest.toNat)) a.edges
      leaders := next.foldl (fun ls dest => ls.insert dest.toNat) a.leaders }

/-- The body of the loop; `none` when the list is empty, and where Python raises. -/
def visit (p : Progress) : Option Progress := do
  let context ← p.table.work.head?
  let σ ← p.table.incoming context
  let table ← Worklist.step (flow U labels statements) p.table
  return ⟨table, record U labels statements context σ p.result⟩

/-- As many visits as there can be: each context can change its state 18 times. -/
def visits : Nat := 2 * (18 * (4096 * 4099 ^ 16)) + 1

/-- The loop at its end. -/
def fixpoint : Progress := Run.finish (visit U labels statements) visits .start

def payloadEnd : Nat := statements.foldl (fun m s => max m (s.pc + s.size)) entry

/-- What an access adds when the loop is over. -/
def writeHazard (a : Analysis) (access : Access) : Analysis :=
  match access.start, access.length with
  | some start, some length =>
    if access.kind == .write then
      let a := if start < payloadEnd statements && start + length > (entry : Int) then
        a.addHazard (.payloadWrite access.pc start) else a
      (a.reachable.filter fun pc : Nat => start ≤ pc && (pc : Int) < start + length).foldl
        (fun a pc => a.addHazard (.selfModifying access.pc pc)) a
    else a
  | _, _ => a

def writeHazards (a : Analysis) : Analysis := a.accesses.foldl (writeHazard statements) a

/-- `analyze`; `none` where it raises. -/
def analyze : Option Analysis :=
  let p := fixpoint U labels statements
  if p.table.work.isEmpty then some (writeHazards statements p.result) else none

end

end ChipEight.Opt
