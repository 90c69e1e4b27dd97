import ChipEight.Machine.Interpreter

/-! The instruction set apart from any engine.

`decode` names the operation a word stands for and `Insn.exec` says what it does.
`basicBlock_eq` connects both to the interpreter, so that a claim about an engine
is a case analysis over `Insn` and never unfolds the interpreter's switch again.
-/

set_option autoImplicit false

namespace ChipEight

/-- The register operations of class 8. -/
inductive AluOp where
  | move | or | and | xor | add | sub | shr | subn | shl
  deriving DecidableEq, Repr

def AluOp.apply (o : AluOp) (x y : Reg) (vm : VM) : VM :=
  let vx := vm.regs x
  let vy := vm.regs y
  match o with
  | .move => vm.setReg x vy
  | .or => vm.setReg x (vx ||| vy)
  | .and => vm.setReg x (vx &&& vy)
  | .xor => vm.setReg x (vx ^^^ vy)
  | .add =>
    let sum : Word := vx.setWidth 16 + vy.setWidth 16
    (vm.setReg x (sum.setWidth 8)).setFlags (flag (sum > 0xff#16))
  | .sub => (vm.setReg x (vx - vy)).setFlags (flag (vx ≥ vy))
  | .shr => (vm.setReg x (vx >>> 1)).setFlags (vx &&& 0x01#8)
  | .subn => (vm.setReg x (vy - vx)).setFlags (flag (vy ≥ vx))
  | .shl => (vm.setReg x (vx <<< 1)).setFlags (flag (vx &&& 0x80#8 != 0#8))

/-- The conditions of the four register skips. -/
inductive SkipCond where
  | eqImm (x : Reg) (kk : Byte)
  | neImm (x : Reg) (kk : Byte)
  | eqReg (x y : Reg)
  | neReg (x y : Reg)
  deriving DecidableEq, Repr

def SkipCond.holds (c : SkipCond) (vm : VM) : Bool :=
  match c with
  | .eqImm x kk => vm.regs x == kk
  | .neImm x kk => vm.regs x != kk
  | .eqReg x y => vm.regs x == vm.regs y
  | .neReg x y => vm.regs x != vm.regs y

inductive Insn where
  | cls
  | ret
  | jp (nnn : Addr)
  | call (nnn : Addr)
  | skip (c : SkipCond)
  | ld (x : Reg) (kk : Byte)
  | add (x : Reg) (kk : Byte)
  | alu (o : AluOp) (x y : Reg)
  | ldI (nnn : Addr)
  | jpV0 (nnn : Addr)
  | rnd (x : Reg) (kk : Byte)
  | drw (x y n : Reg)
  | skipKey (x : Reg) (up : Bool)
  | ldDelay (x : Reg)
  | ldKey (x : Reg)
  | setDelay (x : Reg)
  | setSound (x : Reg)
  | addI (x : Reg)
  | ldF (x : Reg)
  | bcd (x : Reg)
  | save (x : Reg)
  | restore (x : Reg)
  deriving DecidableEq, Repr

/-- The operation of class 8 a low nibble selects. -/
def decodeAlu (n : Nat) : Option AluOp :=
  match n with
  | 0x0 => some .move
  | 0x1 => some .or
  | 0x2 => some .and
  | 0x3 => some .xor
  | 0x4 => some .add
  | 0x5 => some .sub
  | 0x6 => some .shr
  | 0x7 => some .subn
  | 0xe => some .shl
  | _ => none

/-- The operation of class F a low byte selects. -/
def decodeF (kk : Nat) (x : Reg) : Option Insn :=
  match kk with
  | 0x07 => some (.ldDelay x)
  | 0x0a => some (.ldKey x)
  | 0x15 => some (.setDelay x)
  | 0x18 => some (.setSound x)
  | 0x1e => some (.addI x)
  | 0x29 => some (.ldF x)
  | 0x33 => some (.bcd x)
  | 0x55 => some (.save x)
  | 0x65 => some (.restore x)
  | _ => none

/-- The operation a word stands for; `none` is a word the interpreter rejects. -/
def decode (op : Word) : Option Insn :=
  if op == 0x00e0#16 then some .cls
  else if op == 0x00ee#16 then some .ret
  else match opClass op with
    | 0x0 => some (.jp (immediate12 op))
    | 0x1 => some (.jp (immediate12 op))
    | 0x2 => some (.call (immediate12 op))
    | 0x3 => some (.skip (.eqImm (opX op) (immediate8 op)))
    | 0x4 => some (.skip (.neImm (opX op) (immediate8 op)))
    | 0x5 => some (.skip (.eqReg (opX op) (opY op)))
    | 0x6 => some (.ld (opX op) (immediate8 op))
    | 0x7 => some (.add (opX op) (immediate8 op))
    | 0x8 => (decodeAlu (opLow4 op)).map fun o => .alu o (opX op) (opY op)
    | 0x9 => some (.skip (.neReg (opX op) (opY op)))
    | 0xa => some (.ldI (immediate12 op))
    | 0xb => some (.jpV0 (immediate12 op))
    | 0xc => some (.rnd (opX op) (immediate8 op))
    | 0xd => some (.drw (opX op) (opY op) (immediate4 op))
    | 0xe => match opLow8 op with
      | 0x9e => some (.skipKey (opX op) false)
      | 0xa1 => some (.skipKey (opX op) true)
      | _ => none
    | 0xf => decodeF (opLow8 op) (opX op)
    | _ => none

theorem not_miscellaneous {op : Word} {c : Nat} (cls : opClass op = c + 1) :
    (op == 0x00e0#16) = false ∧ (op == 0x00ee#16) = false := by
  constructor
  · apply beq_false_of_ne
    rintro rfl
    cases cls
  · apply beq_false_of_ne
    rintro rfl
    cases cls

/-- The operands of the instructions the JITs' helpers decode a second time. -/
def Insn.Operands (op : Word) : Insn → Prop
  | .call nnn => nnn = immediate12 op
  | .rnd x kk => x = opX op ∧ kk = immediate8 op
  | .drw x y n => x = opX op ∧ y = opY op ∧ n = immediate4 op
  | .skipKey x _ => x = opX op
  | .ldKey x => x = opX op
  | .bcd x => x = opX op
  | .save x => x = opX op
  | .restore x => x = opX op
  | _ => True

theorem decode_operands {op : Word} {i : Insn} (decoded : decode op = some i) :
    i.Operands op := by
  unfold decode decodeF at decoded
  split at decoded
  · cases decoded; trivial
  split at decoded
  · cases decoded; trivial
  split at decoded
  case h_9 =>
    obtain ⟨o, -, rfl⟩ := Option.map_eq_some_iff.mp decoded
    trivial
  case h_15 =>
    split at decoded <;> cases decoded <;> rfl
  case h_16 =>
    split at decoded <;> cases decoded <;> trivial
  all_goals cases decoded <;> simp [Insn.Operands]

/-- The sprite fetched and drawn by `Dxyn`, with the collision flag. -/
def VM.drawSprite (vm : VM) (x y n : Reg) : VM :=
  let sprite := (List.range n.toNat).map vm.memAt
  let r := vm.screen.drawIo (vm.regs x).toNat (vm.regs y).toNat n.toNat sprite
  { vm with screen := r.1 }.setFlags r.2

section
variable {E : Type} (P : Platform E)
open Interpreter

/-- What an instruction does; `op` only serves the error code. -/
def Insn.exec (op : Word) : Insn → State E → Result E
  | .cls => clearscreen
  | .ret => retern P op
  | .jp nnn => fun s => (0#32, ⟨s.vm.setPc (nnn.setWidth 16), P.interrupt s.env⟩)
  | .call nnn => fun s =>
    if s.vm.stackPointer < (stackSize : Int) then
      (0#32, ⟨{ s.vm with
        stack := Function.update s.vm.stack s.vm.stackPointer.toNat (s.vm.programCounter + 2)
        stackPointer := s.vm.stackPointer + 1
        programCounter := nnn.setWidth 16 }, P.interrupt s.env⟩)
    else error op { s with env := P.interrupt s.env }
  | .skip c => fun s => skipIf (c.holds s.vm) s
  | .ld x kk => stepVM fun vm => vm.setReg x kk
  | .add x kk => stepVM fun vm => vm.setReg x (vm.regs x + kk)
  | .alu o x y => stepVM (o.apply x y)
  | .ldI nnn => stepVM fun vm => { vm with addr := nnn.setWidth 16 }
  | .jpV0 nnn => fun s =>
    (0#32, { s with vm := s.vm.setPc (nnn.setWidth 16 + (s.vm.regs 0#4).setWidth 16) })
  | .rnd x kk => fun s =>
    let r := P.rand s.env
    step ⟨s.vm.setReg x ((r.1 &&& 0xff#32).setWidth 8 &&& kk), r.2⟩
  | .drw x y n => fun s => step ⟨s.vm.drawSprite x y n, P.frameSync (P.interrupt s.env)⟩
  | .skipKey x up => fun s =>
    let key := s.vm.regs x
    let r := P.allKeysDown s.env
    if (r.1 &&& P.shiftOne key != 0#32) ^^ up then
      step (advance { s with env := P.clearKey key r.2 })
    else step { s with env := r.2 }
  | .ldDelay x => fun s =>
    let r := P.getDelayTimer (P.syncTimers s.env)
    step ⟨s.vm.setReg x r.1, r.2⟩
  | .ldKey x => fun s =>
    let r := P.awaitKeys s.env
    let s := scanKeys P x r.1 { s with env := r.2 }
    if r.1 &&& quitBit != 0#32 then error op s else step s
  | .setDelay x => fun s =>
    step { s with env := P.setDelayTimer (s.vm.regs x) (P.syncTimers s.env) }
  | .setSound x => fun s =>
    step { s with env := P.setSoundTimer (s.vm.regs x) (P.syncTimers s.env) }
  | .addI x => stepVM fun vm => { vm with addr := vm.addr + (vm.regs x).setWidth 16 }
  | .ldF x => stepVM fun vm => { vm with addr := (vm.regs x &&& 0x0f#8).setWidth 16 * 5 }
  | .bcd x => stepVM (bcdStores x)
  | .save x => stepVM (saveLoop x)
  | .restore x => stepVM (restoreLoop x)

theorem basicBlock_eq (s : State E) :
    basicBlock P s =
      match decode (opcodeAt s.vm.memory s.vm.programCounter) with
      | some i => i.exec P (opcodeAt s.vm.memory s.vm.programCounter) s
      | none => error (opcodeAt s.vm.memory s.vm.programCounter) s := by
  simp only [basicBlock, decode]
  generalize opcodeAt s.vm.memory s.vm.programCounter = op
  split
  · rfl
  split
  · rfl
  -- Both switches look at the class and then at one selector.
  generalize opClass op = cls
  split <;> try first | rfl | grind only
  · generalize opLow4 op = low
    unfold decodeAlu
    split <;> first | (simp_all; done) | rfl
  · generalize opLow8 op = low
    split <;> first | (simp_all; done) | rfl
  · generalize opLow8 op = low
    unfold decodeF
    split <;> first | (simp_all; done) | rfl

theorem decode_zero : decode 0#16 = some (.jp 0#12) := rfl

theorem errorCode_ne_zero {op pc : Word} (nonzero : op ≠ 0#16) : errorCode op pc ≠ 0#32 := by
  intro success
  apply nonzero
  ext i small
  have bit := congrArg (fun v => v.getLsbD (i + 16)) success
  have beyond : pc.getLsbD (i + 16) = false := BitVec.getLsbD_of_ge pc _ (by omega)
  simpa [errorCode, beyond, show i + 16 < 32 by omega, small] using bit

theorem basicBlock_decodes {s t : State E} (stepped : basicBlock P s = (0#32, t)) :
    ∃ i, decode (opcodeAt s.vm.memory s.vm.programCounter) = some i ∧
      i.exec P (opcodeAt s.vm.memory s.vm.programCounter) s = (0#32, t) := by
  rw [basicBlock_eq] at stepped
  cases decoded : decode (opcodeAt s.vm.memory s.vm.programCounter) with
  | some i =>
    rw [decoded] at stepped
    exact ⟨i, rfl, stepped⟩
  | none =>
    -- The word zero decodes, so the code of a rejected word is never zero.
    rw [decoded] at stepped
    have nonzero : opcodeAt s.vm.memory s.vm.programCounter ≠ 0#16 := by
      intro zero
      rw [zero, decode_zero] at decoded
      cases decoded
    exact absurd (congrArg Prod.fst stepped) (errorCode_ne_zero nonzero)

/-! ## What no instruction changes about the host -/

/-- A relation every service of a platform keeps between the host before and after. -/
structure Platform.Keeps (R : E → E → Prop) : Prop where
  refl : ∀ e, R e e
  trans : ∀ {e e' e''}, R e e' → R e' e'' → R e e''
  interrupt : ∀ e, R e (P.interrupt e)
  syncTimers : ∀ e, R e (P.syncTimers e)
  getDelayTimer : ∀ e, R e (P.getDelayTimer e).2
  setDelayTimer : ∀ v e, R e (P.setDelayTimer v e)
  setSoundTimer : ∀ v e, R e (P.setSoundTimer v e)
  rand : ∀ e, R e (P.rand e).2
  allKeysDown : ∀ e, R e (P.allKeysDown e).2
  clearKey : ∀ key e, R e (P.clearKey key e)
  awaitKeys : ∀ e, R e (P.awaitKeys e).2
  frameSync : ∀ e, R e (P.frameSync e)

variable {P}

theorem scanKeys_keeps {R : E → E → Prop} (keeps : P.Keeps R) (x : Reg) (keys : BitVec 32)
    (s : State E) : R s.env (scanKeys P x keys s).env := by
  unfold scanKeys
  generalize List.range 16 = is
  induction is generalizing s with
  | nil => exact keeps.refl s.env
  | cons i is ih =>
    rw [List.foldl_cons]
    exact keeps.trans (keeps.clearKey _ s.env) (ih (scanKey P x keys s i))

theorem exec_keeps {R : E → E → Prop} (keeps : P.Keeps R) (op : Word) (i : Insn) (s : State E) :
    R s.env (i.exec P op s).2.env := by
  cases i with
  | ret =>
    simp only [Insn.exec, retern]
    split <;> exact keeps.interrupt s.env
  | call nnn =>
    simp only [Insn.exec]
    split <;> exact keeps.interrupt s.env
  | jp nnn => exact keeps.interrupt s.env
  | skip c =>
    simp only [Insn.exec, skipIf]
    split <;> exact keeps.refl s.env
  | rnd x kk => exact keeps.rand s.env
  | drw x y n => exact keeps.trans (keeps.interrupt s.env) (keeps.frameSync _)
  | skipKey x up =>
    simp only [Insn.exec]
    split
    · exact keeps.trans (keeps.allKeysDown s.env) (keeps.clearKey _ _)
    · exact keeps.allKeysDown s.env
  | ldDelay x => exact keeps.trans (keeps.syncTimers s.env) (keeps.getDelayTimer _)
  | ldKey x =>
    have scanned := keeps.trans (keeps.awaitKeys s.env)
      (scanKeys_keeps keeps x (P.awaitKeys s.env).1 { s with env := (P.awaitKeys s.env).2 })
    simp only [Insn.exec]
    split <;> exact scanned
  | setDelay x => exact keeps.trans (keeps.syncTimers s.env) (keeps.setDelayTimer _ _)
  | setSound x => exact keeps.trans (keeps.syncTimers s.env) (keeps.setSoundTimer _ _)
  | _ => exact keeps.refl s.env

end

end ChipEight
