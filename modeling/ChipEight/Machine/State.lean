import Mathlib.Data.BitVec
import Mathlib.Logic.Function.Basic

/-! The CHIP-8 machine state shared by every engine (chip8.h, chip8.c, io.h).

Registers, opcodes and addresses are bit vectors of the widths the C types have,
so no separate range invariant is needed. Memory is indexed by twelve bits:
narrowing an address to twelve bits is the `& (MEMORY_SIZE - 1)` of `OPCODE_AT`
and `MEM_AT`.
-/

set_option autoImplicit false

namespace ChipEight

abbrev Byte := BitVec 8
abbrev Word := BitVec 16
abbrev Addr := BitVec 12
abbrev Reg := BitVec 4

abbrev Memory := Addr → Byte

def stackSize : Nat := 0x10
def memorySize : Nat := 0x1000
def entrypoint : Word := 0x200#16

/-- `(a) & (MEMORY_SIZE - 1)`. -/
def mask (a : Word) : Addr := a.setWidth 12

/-- `OPCODE_AT`: two bytes, big-endian, each fetched through the address mask. -/
def opcodeAt (memory : Memory) (pc : Word) : Word :=
  (memory (mask pc)).setWidth 16 <<< 8 ||| (memory (mask (pc + 1))).setWidth 16

/-- The framebuffer of the I/O backends. -/
structure Screen where
  width : Nat
  height : Nat
  display : Nat → Byte

/-- The machine variables chip8.c and the I/O backend own. The `int8_t` stack
pointer stays within `0 .. STACK_SIZE`, so its width plays no part. -/
structure VM where
  regs : Reg → Byte
  memory : Memory
  stack : Nat → Word
  stackPointer : Int
  addr : Word
  programCounter : Word
  screen : Screen

/-! ## Operand fields -/

def opX (op : Word) : Reg := (op >>> 8).setWidth 4
def opY (op : Word) : Reg := (op >>> 4).setWidth 4
def immediate4 (op : Word) : Reg := op.setWidth 4
def immediate8 (op : Word) : Byte := op.setWidth 8
def immediate12 (op : Word) : Addr := op.setWidth 12

/-- `(op & 0xf000) >> 12`, which every decoder switches on first. -/
def opClass (op : Word) : Nat := ((op &&& 0xf000#16) >>> 12).toNat

/-- `op & 0x000f`, the selector inside class 8. -/
def opLow4 (op : Word) : Nat := (op &&& 0x000f#16).toNat

/-- `op & 0x00ff`, the selector inside classes E and F. -/
def opLow8 (op : Word) : Nat := (op &&& 0x00ff#16).toNat

theorem opClass_lt (op : Word) : opClass op < 16 := by
  have masked : op.toNat &&& (0xf000#16).toNat ≤ (0xf000#16).toNat := Nat.and_le_right
  have value : (0xf000#16).toNat = 61440 := rfl
  unfold opClass
  rw [BitVec.toNat_ushiftRight, BitVec.toNat_and, Nat.shiftRight_eq_div_pow]
  omega

/-- A twelve-bit immediate as the `uint16_t` it is stored into. -/
def target (op : Word) : Word := (immediate12 op).setWidth 16

namespace VM

/-- `MEM_AT (addr + i)`. -/
def memAt (vm : VM) (i : Nat) : Byte := vm.memory (mask (vm.addr + BitVec.ofNat 16 i))

def setReg (vm : VM) (x : Reg) (v : Byte) : VM :=
  { vm with regs := Function.update vm.regs x v }

/-- `FLAGS`, the last register. -/
def setFlags (vm : VM) (v : Byte) : VM := vm.setReg 15#4 v

def setPc (vm : VM) (pc : Word) : VM := { vm with programCounter := pc }

/-- Assign `MEM_AT (addr + i)`. -/
def storeAt (vm : VM) (i : Nat) (v : Byte) : VM :=
  { vm with memory := Function.update vm.memory (mask (vm.addr + BitVec.ofNat 16 i)) v }

end VM

/-! ## The machine at power-on -/

/-- The sixteen digit sprites `memory` is initialised with. -/
def font : List Byte :=
  [0xF0, 0x90, 0x90, 0x90, 0xF0,
   0x20, 0x60, 0x20, 0x20, 0x70,
   0xF0, 0x10, 0xF0, 0x80, 0xF0,
   0xF0, 0x10, 0xF0, 0x10, 0xF0,
   0x90, 0x90, 0xF0, 0x10, 0x10,
   0xF0, 0x80, 0xF0, 0x10, 0xF0,
   0xF0, 0x80, 0xF0, 0x90, 0xF0,
   0xF0, 0x10, 0x20, 0x40, 0x40,
   0xF0, 0x90, 0xF0, 0x90, 0xF0,
   0xF0, 0x90, 0xF0, 0x10, 0xF0,
   0xF0, 0x90, 0xF0, 0x90, 0x90,
   0xE0, 0x90, 0xE0, 0x90, 0xE0,
   0xF0, 0x80, 0x80, 0x80, 0xF0,
   0xE0, 0x90, 0x90, 0x90, 0xE0,
   0xF0, 0x80, 0xF0, 0x80, 0xF0,
   0xF0, 0x80, 0xF0, 0x80, 0x80]

/-- Memory after `main` has read a ROM to `memory + ENTRYPOINT`. -/
def loadRom (rom : List Byte) : Memory := fun a =>
  if a.toNat < entrypoint.toNat then font.getD a.toNat 0#8
  else rom.getD (a.toNat - entrypoint.toNat) 0#8

/-- A C comparison stored into a byte. -/
def flag (b : Bool) : Byte := if b then 1#8 else 0#8

end ChipEight
