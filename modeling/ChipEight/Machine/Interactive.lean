import ChipEight.Machine.Idle
import ChipEight.Machine.Tape

/-! The interactive build of interp.c: its timers, its ring of key masks and its `main`.

What the host answers is given by sequences: the k-th `tick ()` of `interrupt`, the
k-th key mask it reads, and so on. The two waits that only end when the host lets them
(for a key, for the next frame) take what they end with from such a sequence too.
-/

set_option autoImplicit false

namespace ChipEight

/-- The answers of the host. -/
structure Outside where
  /-- `tick ()` in `interrupt`. -/
  ticks : Nat → Int
  /-- `read_keys_io ()` in `interrupt`. -/
  keys : Nat → BitVec 32
  /-- The mask that ends a wait of `load_on_key`. -/
  awaited : Nat → BitVec 32
  /-- The tick that ends the frame wait of `draw`. -/
  frames : Nat → Int
  rand : Nat → BitVec 32

/-- No key is pressed and no time passes. -/
def quietOutside : Outside := ⟨fun _ => 0, fun _ => 0#32, fun _ => 1#32, fun _ => 1, fun _ => 0#32⟩

/-- `INPUT_TICKS`. -/
def inputTicks : Nat := 10

structure Live where
  lastTick : Int
  delayTimer : Byte
  soundTimer : Byte
  keysDown : Nat → BitVec 32
  interruptCount : Nat
  /-- How many answers of each kind have been used. -/
  serviced : Nat
  awaits : Nat
  frames : Nat
  rands : Nat

namespace Live

/-- `last_tick = tick ()` in `main`; the rest is zero. -/
def boot (tick : Int) : Live := ⟨tick, 0#8, 0#8, fun _ => 0#32, 0, 0, 0, 0, 0⟩

/-- `if (timer > 0) --timer`. -/
def countDown (timer : Byte) : Byte := if timer > 0#8 then timer - 1 else timer

/-- The timers in `interrupt`. -/
def countTimers (tick : Int) (e : Live) : Live :=
  if tick ≠ e.lastTick then
    { e with
      delayTimer := countDown e.delayTimer
      soundTimer := countDown e.soundTimer
      lastTick := tick }
  else e

/-- The key mask in `interrupt`. -/
def recordKeys (keys : BitVec 32) (e : Live) : Live :=
  { e with
    keysDown := Function.update e.keysDown e.interruptCount keys
    interruptCount := (e.interruptCount + 1) % inputTicks
    serviced := e.serviced + 1 }

def interrupt (o : Outside) (e : Live) : Live :=
  (e.countTimers (o.ticks e.serviced)).recordKeys (o.keys e.serviced)

def allKeysDown (e : Live) : BitVec 32 :=
  (List.range inputTicks).foldl (fun all i => all ||| e.keysDown i) 0#32

end Live

section
variable (o : Outside) (undefinedShift : Byte → BitVec 32)

/-- `clear_key`. -/
def Live.clearKey (key : Byte) (e : Live) : Live :=
  { e with keysDown := fun i =>
      if i < inputTicks then e.keysDown i &&& ~~~(shiftKey undefinedShift key) else e.keysDown i }

def livePlatform : Platform Live where
  interrupt := Live.interrupt o
  syncTimers := id
  getDelayTimer e := (e.delayTimer, e)
  setDelayTimer v e := { e with delayTimer := v }
  setSoundTimer v e := { e with soundTimer := v }
  rand e := (o.rand e.rands, { e with rands := e.rands + 1 })
  allKeysDown e := (e.allKeysDown, e)
  clearKey := Live.clearKey undefinedShift
  awaitKeys e := (o.awaited e.awaits, { e with awaits := e.awaits + 1 })
  shiftOne := shiftKey undefinedShift
  frameSync e := { e with lastTick := o.frames e.frames, frames := e.frames + 1 }

/-! ## `main` -/

/-- Where `main` is: at the top of its loop, in the loop of `idle_wait`, or behind both. -/
inductive Phase where
  | loop
  | idleWait (reg : Reg)
  | finished
  deriving DecidableEq, Repr

structure Main where
  phase : Phase
  state : State Live

/-- The quit key is among the masks of the ring. -/
def Live.quitting (e : Live) : Bool := e.allKeysDown &&& quitBit != 0#32

/-- A pass of the `while` of `idle_wait`; `none` where it ends. -/
def idleLoop (e : Live) : Option Live :=
  if e.delayTimer == 0#8 || e.quitting then none else some (e.interrupt o)

/-- `regs[reg] = 0` behind the loop of `idle_wait`, and `program_counter += 6`. -/
def leaveIdle (reg : Reg) (vm : VM) : VM :=
  (vm.setReg reg 0#8).setPc (vm.programCounter + 6)

/-- The register of the loop that `main` waits out instead of running it. -/
def elided (elideIdle : Bool) (s : State Live) : Option Reg :=
  if elideIdle && s.env.delayTimer != 0#8 then idleDelayLoop s.vm.memory s.vm.programCounter
  else none

/-- The body of the loop of `main`. -/
def mainPass (elideIdle : Bool) (s : State Live) : Main :=
  if s.env.quitting then ⟨.finished, s⟩
  else match elided elideIdle s with
    | some reg => ⟨.idleWait reg, s⟩
    | none =>
      let r := Interpreter.basicBlock (livePlatform o undefinedShift) s
      if r.1 == 0#32 then ⟨.loop, r.2⟩ else ⟨.finished, r.2⟩

/-- A pass of `idle_wait`; the last one goes back to the loop of `main`. -/
def idlePass (reg : Reg) (s : State Live) : Main :=
  match idleLoop o s.env with
  | some env => ⟨.idleWait reg, { s with env := env }⟩
  | none => ⟨.loop, { s with vm := leaveIdle reg s.vm }⟩

def liveStep (elideIdle : Bool) (m : Main) : Option Main :=
  match m.phase with
  | .loop => some (mainPass o undefinedShift elideIdle m.state)
  | .idleWait reg => some (idlePass o reg m.state)
  | .finished => none

end

/-- `main` in front of its loop. -/
def Main.boot (rom : List Byte) (tick : Int) : Main := ⟨.loop, ⟨VM.boot rom, .boot tick⟩⟩

end ChipEight
