import ChipEight.Jit.Elision
import ChipEight.Jit.Quitting
import ChipEight.Machine.Servicing
import ChipEight.Machine.Checked
import ChipEight.Asm.Bounds
import ChipEight.Asm.Comments
import ChipEight.Aot.Refinement
import ChipEight.Aot.Rejection
import ChipEight.Disas.Encoding
import ChipEight.Disas.RoundTrip
import ChipEight.Disas.Writes
import ChipEight.Disas.Bounds
import ChipEight.Jit.Failure
import ChipEight.Jit.Refinement
import ChipEight.Jit.Safepoints
import ChipEight.Jit.Shutdown
import ChipEight.Jit.Termination
import ChipEight.Opt.Canonical
import ChipEight.Opt.Data
import ChipEight.Opt.TailCall
import ChipEight.Opt.Convergence
import ChipEight.Opt.Preservation
import ChipEight.Opt.Relied
import ChipEight.Library.Involution
import ChipEight.Machine.Sprites
import ChipEight.Engines.Spills
import ChipEight.Aot.Keys
import ChipEight.Engines.Keys
import ChipEight.Engines.KeyWait
import ChipEight.Engines.KeySkips
import ChipEight.Engines.Keyboard
import ChipEight.Machine.Errors
import ChipEight.Library.Numeral
import ChipEight.Opt.Numbers
import ChipEight.Aot.WellFormed
import ChipEight.Machine.Budget
import ChipEight.Opt.Placed
import ChipEight.Jit.Backends
import ChipEight.Jit.Overshoot
import ChipEight.Engines.Differential
import ChipEight.Jit.Interleaving
import ChipEight.Engines.Returns
import ChipEight.Jit.Resources
import ChipEight.Engines.Window
import ChipEight.Opt.Acceptance
import ChipEight.Disas.Toolchain
