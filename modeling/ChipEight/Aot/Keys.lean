import ChipEight.Aot.Runtime
import ChipEight.Machine.Interactive

/-! The clock, the timers and the keyboard of aot_runtime.c, with its own ring of key masks.

As for the interactive interpreter, what the host answers is given by sequences.
-/

set_option autoImplicit false

namespace ChipEight.Aot

/-- `key_history` and `key_slot`. -/
structure KeyHistory where
  keyHistory : Nat → BitVec 32
  keySlot : Nat

namespace KeyHistory

def start : KeyHistory := ⟨fun _ => 0#32, 0⟩

/-- `poll_keys`, with the mask `read_keys_io ()` returns. -/
def pollKeys (mask : BitVec 32) (h : KeyHistory) : KeyHistory :=
  ⟨Function.update h.keyHistory h.keySlot mask, (h.keySlot + 1) % inputTicks⟩

def keys (h : KeyHistory) : BitVec 32 :=
  (List.range inputTicks).foldl (fun down i => down ||| h.keyHistory i) 0#32

/-- `clear_key`. -/
def clearKey (undefinedShift : Byte → BitVec 32) (key : Byte) (h : KeyHistory) : KeyHistory :=
  { h with keyHistory := fun i =>
      if i < inputTicks then h.keyHistory i &&& ~~~(shiftKey undefinedShift key)
      else h.keyHistory i }

end KeyHistory

/-- The answers of the host. -/
structure Outside where
  /-- The clock of `poll_keys_if_due`, in nanoseconds. -/
  nanos : Nat → Int
  /-- `read_keys_io ()` in `poll_keys_if_due`. -/
  keys : Nat → BitVec 32
  /-- `tick ()` in `service_timers`. -/
  ticks : Nat → Int
  /-- The masks the wait of `Fx0A` reads before it ends. -/
  waits : Nat → List (BitVec 32)
  /-- The tick that ends the frame wait of `chip8_aot_draw`. -/
  frames : Nat → Int
  rand : Nat → BitVec 32

/-- `NANOS_PER_INPUT_TICK`. -/
def nanosPerInputTick : Int := 16666666 / 10

structure Live where
  delayTimer : Byte
  soundTimer : Byte
  lastTick : Int
  history : KeyHistory
  lastKeyPoll : Int
  /-- How many answers of each kind have been used. -/
  clocks : Nat
  polls : Nat
  serviced : Nat
  waits : Nat
  frames : Nat
  rands : Nat

namespace Live

/-- `last_tick = tick ()` in `main`; the rest is zero. -/
def boot (tick : Int) : Live := ⟨0#8, 0#8, tick, .start, 0, 0, 0, 0, 0, 0, 0⟩

def serviceTimers (now : Int) (e : Live) : Live :=
  if now ≠ e.lastTick then
    { e with
      delayTimer := ChipEight.Live.countDown e.delayTimer
      soundTimer := ChipEight.Live.countDown e.soundTimer
      lastTick := now
      serviced := e.serviced + 1 }
  else { e with serviced := e.serviced + 1 }

def pollKeysIfDue (now : Int) (mask : BitVec 32) (e : Live) : Live :=
  if now - e.lastKeyPoll ≥ nanosPerInputTick then
    { e with
      history := e.history.pollKeys mask
      lastKeyPoll := now
      clocks := e.clocks + 1
      polls := e.polls + 1 }
  else { e with clocks := e.clocks + 1 }

end Live

/-- The runtime in a process of its own. -/
def liveHost (o : Outside) (undefinedShift : Byte → BitVec 32) : Host Live where
  pollKeysIfDue e := e.pollKeysIfDue (o.nanos e.clocks) (o.keys e.polls)
  serviceTimers e := e.serviceTimers (o.ticks e.serviced)
  keys e := (e.history.keys, e)
  clearKey key e := { e with history := e.history.clearKey undefinedShift key }
  delayTimer e := (e.delayTimer, e)
  setDelayTimer v e := { e with delayTimer := v }
  setSoundTimer v e := { e with soundTimer := v }
  rand e := (o.rand e.rands, { e with rands := e.rands + 1 })
  shiftOne := shiftKey undefinedShift
  awaitKeys e :=
    { e with
      history := (o.waits e.waits).foldl (fun h mask => h.pollKeys mask) e.history
      waits := e.waits + 1 }
  frameSync e := { e with lastTick := o.frames e.frames, frames := e.frames + 1 }

end ChipEight.Aot
