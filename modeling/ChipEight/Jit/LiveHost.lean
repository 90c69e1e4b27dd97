import ChipEight.Library.Run
import ChipEight.Machine.Interactive
import ChipEight.Jit.Native

/-! The interactive host as the JITs use it.

A signal raises `interrupt_pending`, and the host is serviced where native code, a helper or the
dispatcher finds it raised. What they find is given by a sequence, like the host's other answers.
-/

set_option autoImplicit false

namespace ChipEight

structure Signals where
  /-- `interrupt_pending`, each time it is looked at. -/
  pending : Nat → Bool
  /-- After so many passes a wait of `jit_idle_wait` is given up. -/
  passes : Nat

/-- The variables of the interactive build that the JITs add to those of interp.c. -/
structure JitLive where
  live : Live
  programOver : Bool
  /-- How often `interrupt_pending` has been looked at. -/
  tested : Nat
  /-- A wait has been given up, so what follows is no run of the program. -/
  givenUp : Bool

namespace JitLive

def boot (tick : Int) : JitLive := ⟨.boot tick, false, 0, false⟩

def mapLive (f : Live → Live) (e : JitLive) : JitLive := { e with live := f e.live }

/-- Put what a service left behind in its place. -/
def answer {A : Type} (e : JitLive) (r : A × Live) : A × JitLive := (r.1, { e with live := r.2 })

section
variable (o : Outside) (signals : Signals)

def checkInterrupt (e : JitLive) : JitLive :=
  let looked := { e with tested := e.tested + 1 }
  if signals.pending e.tested then
    let live := e.live.interrupt o
    { looked with live := live, programOver := e.programOver || live.quitting }
  else looked

/-- The loop of `jit_idle_wait`. -/
def idleWait (e : JitLive) : JitLive :=
  let live := Run.finish (idleLoop o) signals.passes e.live
  { e with
    live := live
    programOver := e.programOver || live.delayTimer != 0#8 && live.quitting
    givenUp := e.givenUp || (idleLoop o live).isSome }

end

end JitLive

namespace Jit

def liveHost (o : Outside) (signals : Signals) (undefinedShift : Byte → BitVec 32) :
    Host JitLive where
  interrupt := .mapLive (.interrupt o)
  syncTimers := id
  getDelayTimer e := (e.live.delayTimer, e)
  setDelayTimer v := .mapLive fun live => { live with delayTimer := v }
  setSoundTimer v := .mapLive fun live => { live with soundTimer := v }
  rand e := e.answer ((livePlatform o undefinedShift).rand e.live)
  allKeysDown e := (e.live.allKeysDown, e)
  clearKey key := .mapLive (.clearKey undefinedShift key)
  awaitKeys e := e.answer ((livePlatform o undefinedShift).awaitKeys e.live)
  shiftOne := shiftKey undefinedShift
  frameSync := .mapLive (livePlatform o undefinedShift).frameSync
  checkInterrupt := .checkInterrupt o signals
  programOver := JitLive.programOver
  -- Instructions are only counted under `BENCH`.
  retire _ := id
  safepoint := .checkInterrupt o signals
  idleWait := .idleWait o signals

end Jit

end ChipEight
