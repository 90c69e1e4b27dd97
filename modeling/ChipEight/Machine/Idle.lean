import ChipEight.Machine.State

/-! The recogniser of the delay-timer poll loop (idle.h). -/

set_option autoImplicit false

namespace ChipEight

/-- `chip8_idle_delay_loop`: the polled register when `pc` begins
`Fx07; 3x00; 1nnn` with `nnn = pc`, and nothing where the C function returns 0. -/
def idleDelayLoop (memory : Memory) (pc : Word) : Option Reg :=
  let a := opcodeAt memory pc
  let b := opcodeAt memory (pc + 2)
  let c := opcodeAt memory (pc + 4)
  let x := opX a
  if a &&& 0xf0ff#16 ≠ 0xf007#16 then none
  else if b &&& 0xf0ff#16 ≠ 0x3000#16 ∨ opX b ≠ x then none
  else if c &&& 0xf000#16 ≠ 0x1000#16 ∨ c &&& 0x0fff#16 ≠ pc then none
  else some x

end ChipEight
