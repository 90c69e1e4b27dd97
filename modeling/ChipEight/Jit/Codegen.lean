import ChipEight.Jit.Native

/-! Trace compilation: `codegen` of libgccjit_jit.c and llvm_jit.cpp.

The generators differ in one respect only: LLVM loads a register into a value
before it uses it, while libgccjit refers to the register itself unless the
operation needs a snapshot. What a compilation reads from memory, marks as code
and uses as a subscript of `pc_block` is logged next to the code it emits.
-/

set_option autoImplicit false

namespace ChipEight.Jit

inductive Backend where
  | libgccjit
  | llvm
  deriving DecidableEq

/-- The compile-time switches: the generator, `BENCH`, and `elide_idle`. -/
structure Build where
  backend : Backend
  bench : Bool
  elideIdle : Bool
  deriving DecidableEq

/-- `SAFEPOINT_INTERVAL`. -/
def safepointInterval : Nat := 32

namespace Build

variable (b : Build)

/-- How the generator names the current value of a register. -/
def operand (i : Nat) (x : Reg) : List Op × Value 8 :=
  match b.backend with
  | .libgccjit => ([], .reg x)
  | .llvm => ([.load i x], .slot i)

/-- `Vx = Vx o Vy`. -/
def emitBinary (o : BinOp) (x y : Reg) : List Op :=
  let vx := b.operand 0 x
  let vy := b.operand 1 y
  vx.1 ++ vy.1 ++ [.setReg x (.bin o vx.2 vy.2)]

/-- The carry test; LLVM compares the 16-bit sum as a signed number. -/
def carryTest : Comparison :=
  match b.backend with
  | .libgccjit => .ugt
  | .llvm => .sgt

/-- Class 8. Operations with a flag read both operands before they store. -/
def emitAlu (low : Nat) (x y : Reg) : Option (List Op) :=
  match low with
  | 0x0 => let vy := b.operand 0 y; some (vy.1 ++ [.setReg x vy.2])
  | 0x1 => some (b.emitBinary .or x y)
  | 0x2 => some (b.emitBinary .and x y)
  | 0x3 => some (b.emitBinary .xor x y)
  | 0x4 =>
    let sum : Value 16 := .bin .add (.zext (.slot 0)) (.zext (.slot 1))
    some [.load 0 x, .load 1 y, .setReg x (.trunc sum),
      .setReg 15#4 (.cmp b.carryTest sum (.const 0xff#16))]
  | 0x5 => some [.load 0 x, .load 1 y, .setReg x (.bin .sub (.slot 0) (.slot 1)),
      .setReg 15#4 (.cmp .uge (.slot 0) (.slot 1))]
  | 0x6 => some [.load 0 x, .setReg x (.bin .shr (.slot 0) (.const 1#8)),
      .setReg 15#4 (.bin .and (.slot 0) (.const 1#8))]
  | 0x7 => some [.load 0 x, .load 1 y, .setReg x (.bin .sub (.slot 1) (.slot 0)),
      .setReg 15#4 (.cmp .uge (.slot 1) (.slot 0))]
  | 0xe => some [.load 0 x, .setReg x (.bin .shl (.slot 0) (.const 1#8)),
      .setReg 15#4 (.bin .shr (.bin .and (.slot 0) (.const 0x80#8)) (.const 7#8))]
  | _ => none

/-- `RETIRE (n)`. -/
def retire (n : Nat) : List Op := if b.bench then [.retire n] else []

/-- The call that brings the timers up to date, emitted under `BENCH`. -/
def syncTimers : List Op := if b.bench then [.call .syncTimers] else []

/-- `MAYBE_IDLE_WAIT (header)`. -/
def idleWait (memory : Memory) (header : Word) : List Op :=
  if !b.bench && b.elideIdle && (idleDelayLoop memory header).isSome then [.call .idleWait] else []

/-- `CALL_HOST_OP`: store the PC of the instruction, then call. -/
def callHostOp (pc : Word) (h : Helper) : List Op := [.setPc (.const pc), .call h]

/-- The comparison of a register skip and its operands. -/
def emitCond (op : Word) : Comparison × List Op × Value 8 × Value 8 :=
  let vx := b.operand 0 (opX op)
  let vy := b.operand 1 (opY op)
  let imm : Value 8 := .const (immediate8 op)
  match opClass op with
  | 0x3 => (.eq, vx.1, vx.2, imm)
  | 0x4 => (.ne, vx.1, vx.2, imm)
  | 0x5 => (.eq, vx.1 ++ vy.1, vx.2, vy.2)
  | _ => (.ne, vx.1 ++ vy.1, vx.2, vy.2)

end Build

/-- What one pass of the main loop leaves behind. -/
inductive Emit where
  /-- Decode failure: `codegen` returns `NULL`. -/
  | bail
  /-- `goto end_of_trace` or `goto trace_terminated`. -/
  | stop (body : Code)
  /-- The loop goes on at `pc`, emitting into what is left of the block. -/
  | next (pc : Word) (body : Code → Code)

namespace Build

variable (b : Build) (idle : Word → List Op) (pcBlock : List Word) (pc op fusedOp t : Word)

/-- Straight-line operations: the loop adds 2 to `pc`. -/
def straight (ops : List Op) : Emit := .next (pc + 2) (seq ops)

/-- Operations that end the trace. -/
def terminal (ops : List Op) : Emit := .stop (seq ops .ret)

/-- Classes 0 and 1: follow the jump, close it, or end a trace grown too long. -/
def emitJump (opCount : Nat) : Emit :=
  let ops := [.safepoint, .setPc (.const t)]
  if t ∈ pcBlock then .stop (seq (ops ++ idle t) (.backedge t))
  else if opCount < 1 <<< 8 then .next t (seq ops)
  else terminal ops

/-- The edge of a skip not taken. A jump behind the skip is folded into it. -/
def emitFallen : Code :=
  if opClass fusedOp = 0x1 then
    let t := target fusedOp
    let ops := b.retire 1 ++ [.safepoint, .setPc (.const t)]
    if t ∈ pcBlock then seq (ops ++ idle t) (.backedge t) else seq ops .ret
  else seq [.setPc (.const (pc + 2))] .ret

/-- The register skips: the trace goes on along the taken edge. -/
def emitSkip (c : Comparison × List Op × Value 8 × Value 8) : Emit :=
  .next (pc + 4) fun rest => seq c.2.1 (.cond c.1 c.2.2.1 c.2.2.2
    (seq [.setPc (.const (pc + 4))] rest) (b.emitFallen idle pcBlock pc fusedOp))

/-- The switch of the main loop. -/
def emitInsn (opCount : Nat) : Emit :=
  let x := opX op
  let vx := b.operand 0 x
  if op == 0x00e0#16 then straight pc [.call .clearscreenIo]
  else if op == 0x00ee#16 then terminal [.call .retern]
  else match opClass op with
    | 0x0 => emitJump idle pcBlock (target op) opCount
    | 0x1 => emitJump idle pcBlock (target op) opCount
    | 0x2 => terminal (callHostOp pc .call)
    | 0x3 => b.emitSkip idle pcBlock pc fusedOp (b.emitCond op)
    | 0x4 => b.emitSkip idle pcBlock pc fusedOp (b.emitCond op)
    | 0x5 => b.emitSkip idle pcBlock pc fusedOp (b.emitCond op)
    | 0x6 => straight pc [.setReg x (.const (immediate8 op))]
    | 0x7 => straight pc (vx.1 ++ [.setReg x (.bin .add vx.2 (.const (immediate8 op)))])
    | 0x8 => match b.emitAlu (opLow4 op) x (opY op) with
      | some ops => straight pc ops
      | none => .bail
    | 0x9 => b.emitSkip idle pcBlock pc fusedOp (b.emitCond op)
    | 0xa => straight pc [.setAddr (.const (target op))]
    | 0xb =>
      let v0 := b.operand 0 0#4
      terminal (v0.1 ++ [.setPc (.bin .add (.const (target op)) (.zext v0.2))])
    | 0xc => straight pc (callHostOp pc .randomByte)
    | 0xd => straight pc (callHostOp pc .draw)
    | 0xe => match opLow8 op with
      | 0x9e => terminal (callHostOp pc .skipKeyXDown)
      | 0xa1 => terminal (callHostOp pc .skipKeyXUp)
      | _ => .bail
    | 0xf => match opLow8 op with
      | 0x07 => straight pc (b.syncTimers ++ [.getDelay x])
      | 0x0a => terminal (callHostOp pc .loadOnKey)
      | 0x15 => straight pc (vx.1 ++ b.syncTimers ++ [.setDelay vx.2])
      | 0x18 => straight pc (vx.1 ++ b.syncTimers ++ [.setSound vx.2])
      | 0x1e => straight pc (vx.1 ++ [.setAddr (.bin .add .addr (.zext vx.2))])
      | 0x29 => straight pc (vx.1 ++ [.setAddr
          (.bin .mul (.bin .and (.zext vx.2) (.const 0x0f#16)) (.const 5#16))])
      | 0x33 => terminal (callHostOp pc .storeBcd)
      | 0x55 => terminal (callHostOp pc .saveRegisters)
      | 0x65 => straight pc (callHostOp pc .restoreRegisters)
      | _ => .bail
    | _ => .bail

end Build

/-! ## The main loop -/

/-- The two bytes `OPCODE_AT (pc)` reads, with their values. -/
def wordReads (memory : Memory) (pc : Word) : List (Addr × Byte) :=
  [(mask pc, memory (mask pc)), (mask (pc + 1), memory (mask (pc + 1)))]

/-- `mark_code (a, n)`. -/
def markCode (a : Word) (n : Nat) : List Addr :=
  (List.range n).map fun i => mask (a + BitVec.ofNat 16 i)

/-- Whether the switch takes the skip case. -/
def isSkip (op : Word) : Bool :=
  opClass op == 0x3 || opClass op == 0x4 || opClass op == 0x5 || opClass op == 0x9

/-- Whether the switch takes the jump case. -/
def isJump (op : Word) : Bool :=
  op != 0x00e0#16 && op != 0x00ee#16 && (opClass op == 0x0 || opClass op == 0x1)

inductive Outcome where
  | bail
  /-- The rest of the current block, and the blocks emitted from here on. -/
  | code (rest : Code) (blocks : List (Word × Code))
  | outOfFuel

/-- A compilation with the log of what it touched. -/
structure Compilation where
  reads : List (Addr × Byte)
  marks : List Addr
  /-- The subscripts into `pc_block`. -/
  indices : List Word
  outcome : Outcome

/-- Put the block of one instruction in front of what the rest of the loop emits. -/
def Outcome.prepend (pc : Word) (body : Code → Code) : Outcome → Outcome
  | .code rest blocks => .code (.goto pc) ((pc, body rest) :: blocks)
  | o => o

section
variable (b : Build) (memory : Memory)

/-- The periodic safepoint and the accounting in front of every instruction. -/
def prologue (opCount : Nat) : List Op :=
  (if opCount ≠ 0 ∧ opCount % safepointInterval = 0 then [.safepoint] else []) ++ b.retire 1

/-- Fell through onto a compiled address: close the loop. -/
def closeLoop (pc : Word) : Code :=
  seq ([.safepoint, .setPc (.const pc)] ++ b.idleWait memory pc) (.backedge pc)

/-- The bytes one pass reads: the opcode and, for a skip, the word behind it. -/
def passReads (pc : Word) : List (Addr × Byte) :=
  wordReads memory pc ++
    if isSkip (opcodeAt memory pc) then wordReads memory (pc + 2) else []

def passMarks (pc : Word) : List Addr :=
  markCode pc 2 ++ if isSkip (opcodeAt memory pc) then markCode (pc + 2) 2 else []

/-- The subscripts of one pass beyond `pc_block[pc]`: jump and fused targets. -/
def passTargets (pc : Word) : List Word :=
  let op := opcodeAt memory pc
  let fusedOp := opcodeAt memory (pc + 2)
  if isJump op then [target op]
  else if isSkip op && opClass fusedOp == 0x1 then [target fusedOp]
  else []

/-- The `for` loop of `codegen`; `emitted` are the addresses `pc_block` has a block for. -/
def codegenLoop : Nat → Word → Nat → List Word → Compilation
  | 0, _, _, _ => ⟨[], [], [], .outOfFuel⟩
  | fuel + 1, pc, opCount, emitted =>
    if pc ∈ emitted then
      ⟨wordReads memory pc, markCode pc 2, [pc], .code (closeLoop b memory pc) []⟩
    else
      let enter := seq (prologue b opCount)
      match b.emitInsn (b.idleWait memory) (pc :: emitted) pc (opcodeAt memory pc)
          (opcodeAt memory (pc + 2)) opCount with
      | .bail => ⟨passReads memory pc, passMarks memory pc, pc :: passTargets memory pc, .bail⟩
      | .stop body =>
        ⟨passReads memory pc, passMarks memory pc, pc :: passTargets memory pc,
          .code (.goto pc) [(pc, enter body)]⟩
      | .next pc' body =>
        let r := codegenLoop fuel pc' (opCount + 1) (pc :: emitted)
        ⟨passReads memory pc ++ r.reads, passMarks memory pc ++ r.marks,
          pc :: passTargets memory pc ++ r.indices,
          r.outcome.prepend pc fun rest => enter (body rest)⟩

/-- `codegen` at `program_counter`. A pass emits one of the 2^16 addresses or ends. -/
def codegen (pc : Word) : Compilation := codegenLoop b memory (2 ^ 16 + 1) pc 0 []

end

end ChipEight.Jit
