import ChipEight.Aot.Ir

/-! The emitter of aot.c: two basic blocks for each ROM word, and the dispatcher. -/

set_option autoImplicit false

namespace ChipEight.Aot

/-- What `block` has printed of a lowered word, with its two masks. -/
structure Printed where
  body : List Instr
  ptrMask : Reg → Bool
  loadMask : Reg → Bool

namespace Printed

def start : Printed := ⟨[], fun _ => false, fun _ => false⟩

def print (i : Instr) (f : Printed) : Printed := { f with body := f.body ++ [i] }

def regptr (pc : Word) (r : Reg) (f : Printed) : Printed :=
  if f.ptrMask r then f
  else { f.print (.getelementptr (.r pc r) r) with ptrMask := Function.update f.ptrMask r true }

def loadreg (pc : Word) (r : Reg) (f : Printed) : Printed :=
  let f := f.regptr pc r
  if f.loadMask r then f
  else { f.print (.load (.v pc r) (.r pc r)) with loadMask := Function.update f.loadMask r true }

def br (target : Label) (f : Printed) : List Instr × Terminator := (f.body, .br target)

def next (pc : Word) (f : Printed) : List Instr × Terminator :=
  (f.print (.storePc (.lit (.i16 (pc + 2))))).br .dispatch

/-- The end of a register skip: compare, select one of two addresses, store it. -/
def skipTail (pc : Word) (eq : Bool) (a b : Operand) (f : Printed) : List Instr × Terminator :=
  ((f.print (.icmp (.c pc) eq a b)).print (.select (.p pc) (.c pc) (pc + 4) (pc + 2))).print
    (.storePc (.name (.p pc))) |>.br .dispatch

end Printed

/-- What `block` prints after the label `op%x`. -/
def lowered (pc op : Word) : List Instr × Terminator :=
  let f := Printed.start
  let x := opX op
  let y := opY op
  let n := immediate4 op
  let kk := immediate8 op
  let nnn := target op
  if op == 0x00e0#16 then (f.print (.call .clear)).next pc
  else if op == 0x00ee#16 then (f.print (.call .return)).br .dispatch
  else match opClass op with
    | 0x0 => (f.print (.storePc (.lit (.i16 nnn)))).br .dispatch
    | 0x1 => (f.print (.storePc (.lit (.i16 nnn)))).br .dispatch
    | 0x2 => (f.print (.call (.call nnn (pc + 2)))).br .dispatch
    | 0x3 => (f.loadreg pc x).skipTail pc true (.name (.v pc x)) (.lit (.i8 kk))
    | 0x4 => (f.loadreg pc x).skipTail pc false (.name (.v pc x)) (.lit (.i8 kk))
    | 0x5 => ((f.loadreg pc x).loadreg pc y).skipTail pc true (.name (.v pc x)) (.name (.v pc y))
    | 0x9 => ((f.loadreg pc x).loadreg pc y).skipTail pc false (.name (.v pc x)) (.name (.v pc y))
    | 0x6 => ((f.regptr pc x).print (.store (.lit (.i8 kk)) (.r pc x))).next pc
    | 0x7 =>
      let f := (f.loadreg pc x).print (.add (.a pc) (.name (.v pc x)) (.lit (.i8 kk)))
      ((f.regptr pc x).print (.store (.name (.a pc)) (.r pc x))).next pc
    | 0x8 => (f.print (.call (.alu x y n))).next pc
    | 0xa => (f.print (.storeAddr (.lit (.i16 nnn)))).next pc
    | 0xb =>
      let f := (f.loadreg pc 0#4).print (.zext (.z pc) (.v pc 0#4))
      ((f.print (.add (.j pc) (.lit (.i16 nnn)) (.name (.z pc)))).print
        (.storePc (.name (.j pc)))).br .dispatch
    | 0xc => (f.print (.call (.random x kk))).next pc
    | 0xd => (f.print (.call (.draw x y n))).next pc
    | 0xe => (f.print (.call (.key x (kk == 0xa1#8)))).br .dispatch
    | 0xf => (f.print (.call (.f x kk))).next pc
    | _ => (f.print (.call (.bad op pc))).br .exit

/-- `block`: the safepoint of a word, then the word itself. -/
def block (pc op : Word) : Program :=
  [⟨.pc pc, [.retire (.stop pc)], .brIf (.stop pc) .exit (.op pc)⟩,
    ⟨.op pc, (lowered pc op).1, (lowered pc op).2⟩]

/-- The values of `ENTRYPOINT + i` in the two loops of `main` over a ROM of `z` bytes. -/
def romAddresses (z : Nat) : List Word :=
  (List.range ((z + 1) / 2)).map fun k => entrypoint + BitVec.ofNat 16 (2 * k)

/-- `(rom[i] << 8) | rom[i + 1]` at `ENTRYPOINT + i`. -/
def romWord (rom : List Byte) (pc : Word) : Word :=
  let i := pc.toNat - entrypoint.toNat
  (rom.getD i 0#8).setWidth 16 <<< 8 ||| (rom.getD (i + 1) 0#8).setWidth 16

/-- `chip8_aot_run` for a ROM. -/
def chip8AotRun (rom : List Byte) : Program :=
  [⟨.entry, [], .br .dispatch⟩,
    ⟨.dispatch, [.loadPc .pc],
      .switch .pc .exit ((romAddresses rom.length).map fun pc => (pc, .pc pc))⟩] ++
    (romAddresses rom.length).flatMap (fun pc => block pc (romWord rom pc)) ++
    [⟨.exit, [], .ret⟩]

/-- `main`; `none` is a `die`. -/
def main (rom : List Byte) : Option Program :=
  if rom.length > memorySize - entrypoint.toNat then none
  else if rom.length = 0 ∨ rom.length % 2 = 1 then none
  else some (chip8AotRun rom)

end ChipEight.Aot
