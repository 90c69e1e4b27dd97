import ChipEight.Aot.Runtime

/-! The part of LLVM IR that aot.c prints, and what it means.

A local keeps the letters and numbers its format string prints. Reading a local that
no instruction has defined is stuck, so a run that goes through is also a proof that
every use has a definition before it.
-/

set_option autoImplicit false

namespace ChipEight.Aot

/-- The local names of the emitted function. -/
inductive Name where
  | pc
  | stop (pc : Word)
  /-- `%r200_3`, the address of a register. -/
  | r (pc : Word) (reg : Reg)
  /-- `%v200_3`, the value loaded from it. -/
  | v (pc : Word) (reg : Reg)
  | c (pc : Word)
  | p (pc : Word)
  | a (pc : Word)
  | z (pc : Word)
  | j (pc : Word)
  deriving DecidableEq, Repr

inductive Label where
  | entry
  | dispatch
  | pc (pc : Word)
  | op (pc : Word)
  | exit
  deriving DecidableEq, Repr

inductive Value where
  | i1 (b : Bool)
  | i8 (v : Byte)
  | i16 (w : Word)
  /-- A pointer into `@regs`. -/
  | ptr (reg : Reg)
  deriving DecidableEq, Repr

inductive Operand where
  | lit (v : Value)
  | name (n : Name)
  deriving DecidableEq, Repr

/-- The calls of runtime functions that return nothing. -/
inductive Callee where
  | clear
  | return
  | call (dst ret : Word)
  | alu (x y n : Reg)
  | random (x : Reg) (k : Byte)
  | draw (x y n : Reg)
  | key (x : Reg) (up : Bool)
  | f (x : Reg) (k : Byte)
  | bad (op pc : Word)
  deriving DecidableEq, Repr

inductive Instr where
  | retire (dst : Name)
  | call (callee : Callee)
  | getelementptr (dst : Name) (reg : Reg)
  | load (dst ptr : Name)
  | loadPc (dst : Name)
  | icmp (dst : Name) (eq : Bool) (a b : Operand)
  | select (dst cond : Name) (yes no : Word)
  | add (dst : Name) (a b : Operand)
  | zext (dst src : Name)
  | store (v : Operand) (ptr : Name)
  | storePc (v : Operand)
  | storeAddr (v : Operand)
  deriving DecidableEq, Repr

inductive Terminator where
  | br (target : Label)
  | brIf (cond : Name) (yes no : Label)
  | switch (on : Name) (default : Label) (cases : List (Word × Label))
  | ret
  deriving DecidableEq, Repr

structure BasicBlock where
  label : Label
  body : List Instr
  term : Terminator
  deriving DecidableEq, Repr

abbrev Program := List BasicBlock

/-! ## Meaning -/

structure Frame (E : Type) where
  machine : Machine E
  locals : Name → Option Value

section
variable {E : Type}

def Frame.set (f : Frame E) (n : Name) (v : Value) : Frame E :=
  { f with locals := Function.update f.locals n (some v) }

def Frame.setMachine (f : Frame E) (m : Machine E) : Frame E := { f with machine := m }

def Frame.eval (f : Frame E) : Operand → Option Value
  | .lit v => some v
  | .name n => f.locals n

def icmpValues (eq : Bool) : Value → Value → Option Value
  | .i8 a, .i8 b => some (.i1 (if eq then a == b else a != b))
  | _, _ => none

def addValues : Value → Value → Option Value
  | .i8 a, .i8 b => some (.i8 (a + b))
  | .i16 a, .i16 b => some (.i16 (a + b))
  | _, _ => none

variable (H : Host E)

def Callee.run : Callee → Machine E → Machine E
  | .clear => chip8AotClear
  | .return => chip8AotReturn
  | .call dst ret => chip8AotCall dst ret
  | .alu x y n => chip8AotAlu x y n.toNat
  | .random x k => chip8AotRandom H x k
  | .draw x y n => chip8AotDraw H x y n
  | .key x up => chip8AotKey H x up
  | .f x k => chip8AotF H x k.toNat
  | .bad _ _ => id

def Instr.run (i : Instr) (f : Frame E) : Option (Frame E) :=
  match i with
  | .retire dst =>
    let r := chip8AotRetire H f.machine
    some ((f.setMachine r.2).set dst (.i1 r.1))
  | .call callee => some (f.setMachine (callee.run H f.machine))
  | .getelementptr dst reg => some (f.set dst (.ptr reg))
  | .load dst ptr =>
    match f.locals ptr with
    | some (.ptr reg) => some (f.set dst (.i8 (f.machine.vm.regs reg)))
    | _ => none
  | .loadPc dst => some (f.set dst (.i16 f.machine.vm.programCounter))
  | .icmp dst eq a b => do
    let a ← f.eval a
    let b ← f.eval b
    let v ← icmpValues eq a b
    some (f.set dst v)
  | .select dst cond yes no =>
    match f.locals cond with
    | some (.i1 c) => some (f.set dst (.i16 (if c then yes else no)))
    | _ => none
  | .add dst a b => do
    let a ← f.eval a
    let b ← f.eval b
    let v ← addValues a b
    some (f.set dst v)
  | .zext dst src =>
    match f.locals src with
    | some (.i8 v) => some (f.set dst (.i16 (v.setWidth 16)))
    | _ => none
  | .store v ptr =>
    match f.eval v, f.locals ptr with
    | some (.i8 v), some (.ptr reg) => some (f.setMachine (f.machine.mapVM (VM.setReg · reg v)))
    | _, _ => none
  | .storePc v =>
    match f.eval v with
    | some (.i16 pc) => some (f.setMachine (f.machine.mapVM (VM.setPc · pc)))
    | _ => none
  | .storeAddr v =>
    match f.eval v with
    | some (.i16 a) => some (f.setMachine (f.machine.mapVM fun vm => { vm with addr := a }))
    | _ => none

def runBody : List Instr → Frame E → Option (Frame E)
  | [], f => some f
  | i :: is, f => (i.run H f).bind (runBody is)

/-- The label control goes to; `none` at `ret`. -/
def Terminator.next (t : Terminator) (f : Frame E) : Option Label :=
  match t with
  | .br target => some target
  | .brIf cond yes no =>
    match f.locals cond with
    | some (.i1 c) => some (if c then yes else no)
    | _ => none
  | .switch on default cases =>
    match f.locals on with
    | some (.i16 w) => some ((cases.lookup w).getD default)
    | _ => none
  | .ret => none

/-- Control is at the start of the block named `label`. -/
structure Config (E : Type) where
  label : Label
  frame : Frame E

/-- Execute one basic block. -/
def Program.step (prog : Program) (c : Config E) : Option (Config E) := do
  let b ← prog.find? fun b => b.label == c.label
  let f ← runBody H b.body c.frame
  let l ← b.term.next f
  some ⟨l, f⟩

end

/-- `chip8_aot_run` is called. -/
def Config.start {E : Type} (m : Machine E) : Config E := ⟨.entry, ⟨m, fun _ => none⟩⟩

end ChipEight.Aot
