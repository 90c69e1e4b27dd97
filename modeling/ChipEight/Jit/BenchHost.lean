import ChipEight.Machine.Bench
import ChipEight.Jit.Native

/-! The benchmark host as the JITs use it.

It differs from the interpreter's only in when it looks at the clock: the end of
the run is noticed at safepoints and between traces, and recorded in
`program_over` for the emitted code to see.
-/

set_option autoImplicit false

namespace ChipEight

namespace Bench

def setOver (b : Bench) : Bench := { b with programOver := true }

def checkInterrupt (b : Bench) : Bench :=
  let b := b.syncTimers
  if b.done then b.setOver else b

/-- The emitted comparison with the next check, and `bench_safepoint` behind it. -/
def safepoint (b : Bench) : Bench :=
  if b.retired ≥ b.nextSafepoint then b.checkInterrupt.advanceSafepoint else b

end Bench

namespace Jit

def benchHost (rng : Nat → BitVec 32) (undefinedShift : Byte → BitVec 32) : Host Bench :=
  { benchPlatform rng undefinedShift with
    awaitKeys := Bench.awaitKeys Bench.setOver
    checkInterrupt := Bench.checkInterrupt
    programOver := Bench.programOver
    retire := Bench.retire
    safepoint := Bench.safepoint
    -- Emitted only where `BENCH` is not defined.
    idleWait := id }

end Jit

end ChipEight
