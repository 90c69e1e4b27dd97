import ChipEight.Library.Run
import ChipEight.Jit.Codegen

/-! The dispatcher of the JITs: the main loop around the trace cache.

A step is one test or call of the main loop, or one block of the trace it called,
so that every instruction a trace executes begins at a state of the run. The
cache is a function of the program counter in both programs, an array in one and
a map in the other.
-/

set_option autoImplicit false

namespace ChipEight.Jit

/-- A compiled trace: its blocks by address, and the bytes it was built from. -/
structure Trace where
  start : Word
  blocks : List (Word × Code)
  reads : List (Addr × Byte)

def Trace.block (t : Trace) (pc : Word) : Option Code := t.blocks.lookup pc

/-- Why a run ended. -/
inductive Stop where
  | quit
  | codegenFailed
  /-- A helper called `errer ()`. -/
  | errer
  /-- The model's bound on a compilation was too small. -/
  | outOfFuel
  deriving DecidableEq

inductive Position where
  /-- The top of the main loop. -/
  | top
  /-- About to execute the block of `pc` inside a trace. -/
  | running (t : Trace) (pc : Word)
  /-- At the `program_over` test of a closed back edge to `pc`. -/
  | backedge (t : Trace) (pc : Word)
  /-- A trace has returned. -/
  | returned
  | stopped (why : Stop)

structure Dispatcher (E : Type) where
  machine : Machine E
  cache : Word → Option Trace
  traceCount : Nat
  compiled : Nat
  flushes : Nat
  position : Position

/-- The state at the first pass of the main loop. -/
def start {E : Type} (vm : VM) (env : E) : Dispatcher E where
  machine := ⟨vm, env, fun _ => false, false⟩
  cache := fun _ => none
  traceCount := 0
  compiled := 0
  flushes := 0
  position := .top

namespace Dispatcher

section
variable {E : Type} (P : Host E) (b : Build)

/-- `mark_code` for every byte a compilation read. -/
def markRead (marks : List Addr) (m : Machine E) : Machine E :=
  { m with codeBytes := fun a => marks.contains a || m.codeBytes a }

/-- Call `codegen` and cache what it returns. -/
def compile (d : Dispatcher E) : Dispatcher E :=
  let pc := d.machine.vm.programCounter
  let r := codegen b d.machine.vm.memory pc
  let d := { d with machine := markRead r.marks d.machine }
  match r.outcome with
  | .bail => { d with position := .stopped .codegenFailed }
  | .outOfFuel => { d with position := .stopped .outOfFuel }
  | .code _ blocks => { d with
      cache := Function.update d.cache pc (some ⟨pc, blocks, r.reads⟩)
      compiled := d.compiled + 1 }

/-- Where a trace goes on after a block. -/
def leave (t : Trace) : Exit → Position
  | .goto pc => .running t pc
  | .backedge pc => .backedge t pc
  | .ret => .returned

/-- Discard every trace. -/
def invalidateTraces (d : Dispatcher E) : Dispatcher E :=
  { d with
    machine := { d.machine with codeBytes := fun _ => false, smcPending := false }
    cache := fun _ => none
    flushes := d.flushes + 1 }

/-- From the return of a trace to the end of the main loop's body. -/
def service (d : Dispatcher E) : Dispatcher E :=
  let d := { d with machine := d.machine.mapEnv P.checkInterrupt }
  let d := if d.machine.smcPending then d.invalidateTraces else d
  let keys := P.allKeysDown d.machine.env
  let d := { d with machine := { d.machine with env := keys.2 } }
  if keys.1 &&& quitBit != 0#32 || P.programOver d.machine.env then
    { d with position := .stopped .quit }
  else { d with position := .top, traceCount := d.traceCount + 1 }

/-- One step; `none` once the run has stopped. -/
def step (d : Dispatcher E) : Option (Dispatcher E) :=
  match d.position with
  | .top =>
    match d.cache d.machine.vm.programCounter with
    | none => some (d.compile b)
    | some t => some { d with position := .running t t.start }
  | .running t pc => do
    let code ← t.block pc
    match code.run P ⟨d.machine, fun _ => 0#8⟩ with
    | none => some { d with position := .stopped .errer }
    | some (m, exit) => some { d with machine := m, position := leave t exit }
  | .backedge t pc =>
    if P.programOver d.machine.env then some { d with position := .returned }
    else some { d with position := .running t pc }
  | .returned => some (d.service P)
  | .stopped _ => none

end

end Dispatcher

end ChipEight.Jit
