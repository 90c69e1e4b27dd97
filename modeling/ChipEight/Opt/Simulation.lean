import ChipEight.Library.Observation
import ChipEight.Machine.Rom
import ChipEight.Opt.Rules
import ChipEight.Opt.TailCall

/-! A program and what deleting and replacing some of its instructions leaves of it.

A patch says where the instructions of a program are, what becomes of each, and by how much
an address moves. The patched program does what the program does, step by step, but for the
steps that were deleted: it waits while the program loads what the next instruction loads
again, while it loads the first part of a sum, and while it returns into a `RET` behind a
call that was replaced by a jump.
-/

set_option autoImplicit false

namespace ChipEight.Opt

open Interpreter

/-- What becomes of an instruction: it stays, it is deleted for one of two reasons, it takes
in the `ADD` behind it or is such an `ADD`, or it is a call turned into a jump. -/
inductive Fate where
  | kept
  | folded
  | merged
  | noop
  | overwritten
  | tailCall
  deriving DecidableEq, Repr

def Fate.isDeleted : Fate → Bool
  | .merged => true
  | .noop => true
  | .overwritten => true
  | _ => false

/-- What becomes of the instructions of a program, by their addresses. -/
structure Patch where
  insn : Nat → Option Insn
  fate : Nat → Fate
  deleted : Nat → Nat       -- bytes that are deleted before an address
  displacement : Nat → Nat  -- by how much the address moves that an `LD I` loads

section
variable (p : Patch)

/-- Where an address is moved to. -/
def Patch.moved (pc : Word) : Word := pc - BitVec.ofNat 16 (p.deleted pc.toNat)

/-- A return address behind a call that was turned into a jump. -/
def Patch.pending (v : Word) : Bool := p.fate (v.toNat - 2) == .tailCall

/-- The frames the patched program has. -/
def Patch.erase (stack : List Word) : List Word :=
  (stack.filter fun v => !p.pending v).map p.moved

/-- An instruction of the patched program in the place of one at `pc`. -/
structure InPlace (rom' : List Byte) (pc : Nat) (j : Insn) : Prop where
  above : p.deleted pc ≤ pc
  first : InRom rom' (pc - p.deleted pc)
  second : InRom rom' (pc - p.deleted pc + 1)
  word : decode (opcodeAt (loadRom rom') (BitVec.ofNat 16 (pc - p.deleted pc))) = some j

/-- A jump to an instruction leads to where it is moved to. -/
def Lands (y z : Addr) : Prop :=
  (p.insn y.toNat).isSome → z.toNat + p.deleted y.toNat = y.toNat ∧ p.fate y.toNat ≠ .merged

/-- An instruction at `pc` that stays, with the address it has in the patched program. -/
inductive Stays (pc : Nat) : Insn → Insn → Prop where
  | same {i : Insn} (plain : i.address = none) : Stays pc i i
  | jp {y z : Addr} (lands : Lands p y z) : Stays pc (.jp y) (.jp z)
  | call {y z : Addr} (lands : Lands p y z) : Stays pc (.call y) (.call z)
  | ldI {y z : Addr} (loads : z.toNat + p.displacement pc = y.toNat) : Stays pc (.ldI y) (.ldI z)
  | jpV0 {y z : Addr} : Stays pc (.jpV0 y) (.jpV0 z)

/-- What stands in the patched program for an instruction. -/
inductive Replaced (rom' : List Byte) (pc : Nat) : Fate → Insn → Prop where
  | kept {i j : Insn} (placed : InPlace p rom' pc j) (stays : Stays p pc i j) :
      Replaced rom' pc .kept i
  | folded {x : Reg} {m n : Byte} (placed : InPlace p rom' pc (.ld x (m + n)))
      (next : p.insn (pc + 2) = some (.add x n)) (merged : p.fate (pc + 2) = .merged) :
      Replaced rom' pc .folded (.ld x m)
  | move (x : Reg) : Replaced rom' pc .noop (.alu .move x x)
  | add (x : Reg) : Replaced rom' pc .noop (.add x 0#8)
  | address (y : Addr) : Replaced rom' pc .noop (.ldI y)
  | overwritten {i j : Insn} (next : p.insn (pc + 2) = some j) : Replaced rom' pc .overwritten i
  | tailCall {y z : Addr} (placed : InPlace p rom' pc (.jp z)) (lands : Lands p y z)
      (next : p.insn (pc + 2) = some .ret) : Replaced rom' pc .tailCall (.call y)

/-- The second ROM is the first one patched. -/
structure Patched (rom rom' : List Byte) : Prop where
  fits : rom.length ≤ 3584
  shrinks : ∀ v, rom'.length + p.displacement v ≤ rom.length
  inside : ∀ pc i, p.insn pc = some i → InRom rom pc ∧ InRom rom (pc + 1)
  word : ∀ pc i, p.insn pc = some i →
    decode (opcodeAt (loadRom rom) (BitVec.ofNat 16 pc)) = some i
  start : p.deleted 512 = 0 ∧ p.fate 512 ≠ .merged
  next : ∀ pc i, p.insn pc = some i →
    p.deleted (pc + 2) = p.deleted pc + if (p.fate pc).isDeleted then 2 else 0
  merges : ∀ pc i, p.insn pc = some i → p.fate (pc + 2) = .merged → p.fate pc = .folded
  skips : ∀ pc i, p.insn pc = some i → 4#16 ∈ i.strides → (p.insn (pc + 4)).isSome →
    p.deleted (pc + 4) = p.deleted pc ∧ p.fate (pc + 4) ≠ .merged
  replaced : ∀ pc i, p.insn pc = some i → p.fate pc ≠ .merged →
    Replaced p rom' pc (p.fate pc) i

/-! ## What is remembered of a run -/

/-- By how much the address register is displaced in the patched program, and which bytes of
the two memories were stored there together. -/
structure Ghost where
  displaced : Word
  alike : Addr → Addr → Prop

/-- Where there is no ROM the memories begin alike. -/
def Ghost.start : Ghost := ⟨0, fun a b => loadRom [] a = loadRom [] b⟩

/-- `LD I` moves as its operand does, and `LD F` leads to the font, which does not move. -/
def Ghost.displacedAfter (g : Ghost) (pc : Nat) : Insn → Word
  | .ldI _ => BitVec.ofNat 16 (p.displacement pc)
  | .ldF _ => 0
  | _ => g.displaced

def Ghost.alikeAfter (g : Ghost) (addr : Word) (i : Insn) : Addr → Addr → Prop :=
  if i.writeLength = 0 then g.alike
  else fun a b =>
    (∃ j < i.writeLength, a = mask (addr + BitVec.ofNat 16 j) ∧
      b = mask (addr - g.displaced + BitVec.ofNat 16 j)) ∨
    a ∉ i.written addr ∧ b ∉ i.written (addr - g.displaced) ∧ g.alike a b

def Ghost.after (g : Ghost) (vm : VM) : Ghost :=
  match p.insn vm.programCounter.toNat with
  | none => g
  | some i => ⟨g.displacedAfter p vm.programCounter.toNat i, g.alikeAfter vm.addr i⟩

/-- Two loads of which the second undoes the first. -/
inductive Harmless : Insn → Insn → Prop where
  | load {x : Reg} {i j : Insn} (loads : Loads x i) (reloads : Reloads x j) : Harmless i j
  | restore (x : Reg) : Harmless (.restore x) (.restore x)
  | address (y z : Addr) : Harmless (.ldI y) (.ldI z)

/-- A step of the program from which the patched one does not go astray: it executes an
instruction that was patched, and not `JP V0`; it does not touch the ROM as data; where its
instruction was deleted, the next one undoes it; and what it reads the patched program has
too. -/
structure Fine (rom : List Byte) (g : Ghost) (vm : VM) (i : Insn) : Prop where
  here : p.insn vm.programCounter.toNat = some i
  notBranch : ∀ nnn, i ≠ .jpV0 nnn
  outside : ∀ a ∈ i.read vm.addr ++ i.written vm.addr, ¬ InRom rom a.toNat
  noop : p.fate vm.programCounter.toNat = .noop → ∀ y, i ≠ .ldI y
  overwritten : p.fate vm.programCounter.toNat = .overwritten →
    ∀ j, p.insn (vm.programCounter.toNat + 2) = some j → Harmless i j
  reads : p.fate vm.programCounter.toNat = .kept → ∀ k < i.readLength,
    g.alike (mask (vm.addr + BitVec.ofNat 16 k))
      (mask (vm.addr - g.displaced + BitVec.ofNat 16 k))

end

/-! ## The two machines -/

/-- What the two machines hold where bytes were stored together. -/
structure Bytes (rom rom' : List Byte) (g : Ghost) (s t : State Cursor) : Prop where
  intact : Intact rom s.vm.memory
  intact' : Intact rom' t.vm.memory
  bytes : ∀ a b, g.alike a b → ¬ InRom rom a.toNat → ¬ InRom rom' b.toNat →
    t.vm.memory b = s.vm.memory a

/-- The program and the patched one, but for where control is. -/
structure Core (p : Patch) (rom rom' : List Byte) (g : Ghost) (s t : State Cursor) : Prop where
  alike : Alike s t
  addr : t.vm.addr = s.vm.addr - g.displaced
  displaced : rom'.length + g.displaced.toNat ≤ rom.length
  memory : Bytes rom rom' g s t
  stack : frames t.vm = p.erase (frames s.vm)
  nonneg : 0 ≤ s.vm.stackPointer ∧ 0 ≤ t.vm.stackPointer
  returns : ∀ v ∈ frames s.vm, p.fate v.toNat ≠ .merged ∧
    (p.pending v = true → p.insn v.toNat = some .ret)

/-- Control is at an instruction, and where it was moved to. -/
def InStep (p : Patch) (s t : State Cursor) : Prop :=
  (p.insn s.vm.programCounter.toNat).isSome →
    t.vm.programCounter = p.moved s.vm.programCounter ∧
      p.fate s.vm.programCounter.toNat ≠ .merged

/-- Both are at a `RET`. -/
def Waits (p : Patch) (s t : State Cursor) : Prop :=
  p.insn s.vm.programCounter.toNat = some .ret ∧
    opcodeAt t.vm.memory t.vm.programCounter = retWord

section
variable {p : Patch} {rom rom' : List Byte} {g : Ghost} {s s' t : State Cursor}

/-! ### Words -/

theorem rom_small {a : Nat} (inside : InRom rom a) (fits : rom.length ≤ 3584) : a < 4096 := by
  have base : entrypoint.toNat = 512 := rfl
  have high := inside.2
  omega

theorem Patched.fetch (patched : Patched p rom rom') {memory : Memory} (intact : Intact rom memory)
    {pc : Word} {i : Insn} (insn : p.insn pc.toNat = some i) :
    decode (opcodeAt memory pc) = some i := by
  obtain ⟨first, second⟩ := patched.inside _ _ insn
  rw [intact.opcode patched.fits first second]
  have word := patched.word _ _ insn
  rwa [BitVec.ofNat_toNat, BitVec.setWidth_eq] at word

theorem Patched.shorter (patched : Patched p rom rom') : rom'.length ≤ rom.length :=
  Nat.le_of_add_right_le (patched.shrinks 0)

theorem InPlace.moved {pc : Word} {j : Insn} (placed : InPlace p rom' pc.toNat j) :
    (p.moved pc).toNat = pc.toNat - p.deleted pc.toNat := by
  have above := placed.above
  have bound := pc.isLt
  rw [Patch.moved, BitVec.toNat_sub, BitVec.toNat_ofNat]
  omega

theorem InPlace.fetch (patched : Patched p rom rom') {memory : Memory}
    (intact : Intact rom' memory) {pc : Word} {j : Insn} (placed : InPlace p rom' pc.toNat j) :
    decode (opcodeAt memory (p.moved pc)) = some j := by
  have moved := placed.moved
  have fits : rom'.length ≤ 3584 := Nat.le_trans patched.shorter patched.fits
  rw [intact.opcode fits (moved ▸ placed.first) (moved ▸ placed.second)]
  have word := placed.word
  rwa [← moved, BitVec.ofNat_toNat, BitVec.setWidth_eq] at word

theorem Patched.next_toNat (patched : Patched p rom rom') {pc : Word} {i : Insn}
    (insn : p.insn pc.toNat = some i) : (pc + 2).toNat = pc.toNat + 2 ∧
      (pc + 4).toNat = pc.toNat + 4 := by
  have bound := rom_small (patched.inside _ _ insn).1 patched.fits
  bv_omega

theorem Patched.moved_next (patched : Patched p rom rom') {pc : Word} {i : Insn}
    (insn : p.insn pc.toNat = some i) :
    p.moved (pc + 2) = p.moved pc + if (p.fate pc.toNat).isDeleted then 0 else 2 := by
  have two := (patched.next_toNat insn).1
  have next := patched.next _ _ insn
  rw [Patch.moved, two, next, Patch.moved]
  split
  · rw [BitVec.ofNat_add]
    bv_omega
  · rw [Nat.add_zero]
    exact BitVec.add_sub_comm

/-! ### Bytes -/

theorem displaced_outside {a d : Word} (fits : rom.length ≤ 3584)
    (displaced : rom'.length + d.toNat ≤ rom.length) (outside : ¬ InRom rom (mask a).toNat) :
    ¬ InRom rom' (mask (a - d)).toNat := by
  have base : entrypoint.toNat = 512 := rfl
  unfold InRom at outside ⊢
  simp only [mask, BitVec.toNat_setWidth, BitVec.toNat_sub, base] at outside ⊢
  omega

theorem displaced_add (a d : Word) (k : Nat) :
    a - d + BitVec.ofNat 16 k = a + BitVec.ofNat 16 k - d := BitVec.add_sub_comm.symm

theorem alikeAfter_cases {addr : Word} {i : Insn} {a b : Addr} (alike : g.alikeAfter addr i a b) :
    (∃ k < i.writeLength, a = mask (addr + BitVec.ofNat 16 k) ∧
      b = mask (addr - g.displaced + BitVec.ofNat 16 k)) ∨
    a ∉ i.written addr ∧ b ∉ i.written (addr - g.displaced) ∧ g.alike a b := by
  unfold Ghost.alikeAfter at alike
  split at alike
  · rename_i none
    refine .inr ⟨?_, ?_, alike⟩ <;>
    · rw [Insn.written_eq, none]
      exact List.not_mem_nil
  · exact alike

theorem Core.bytes_after (core : Core p rom rom' g s t) (fits : rom.length ≤ 3584)
    {P : Platform Cursor} {op op' : Word} {i : Insn} {s' t' : State Cursor}
    (outside : ∀ a ∈ i.read s.vm.addr ++ i.written s.vm.addr, ¬ InRom rom a.toNat)
    (executed : i.exec P op s = (0#32, s')) (executed' : i.exec P op' t = (0#32, t'))
    {g' : Ghost} (after : g'.alike = g.alikeAfter s.vm.addr i) : Bytes rom rom' g' s' t' := by
  have away (a : Addr) (inside : a ∈ i.written s.vm.addr) : ¬ InRom rom a.toNat :=
    outside a (List.mem_append_right _ inside)
  refine ⟨core.memory.intact.exec away executed, core.memory.intact'.exec ?_ executed', ?_⟩
  · intro b inside
    rw [core.addr, Insn.written_eq] at inside
    obtain ⟨k, small, rfl⟩ := mem_span.mp inside
    rw [displaced_add]
    apply displaced_outside fits core.displaced
    apply away
    rw [Insn.written_eq]
    exact mem_span.mpr ⟨k, small, rfl⟩
  · intro a b alike outside outside'
    rw [after] at alike
    obtain ⟨k, small, rfl, rfl⟩ | ⟨notStored, notStored', before⟩ := alikeAfter_cases alike
    · have stored := exec_stored P op i s small
      have stored' := exec_stored P op' i t small
      rw [executed] at stored
      rw [executed', core.addr, stored_alike i core.alike.regs] at stored'
      exact stored'.trans stored.symm
    · have kept := exec_memory P op i s notStored
      rw [← core.addr] at notStored'
      have kept' := exec_memory P op' i t notStored'
      rw [executed] at kept
      rw [executed'] at kept'
      exact kept'.trans ((core.memory.bytes a b before outside outside').trans kept.symm)

theorem Core.reads (core : Core p rom rom' g s t) (fits : rom.length ≤ 3584) {i : Insn}
    (outside : ∀ a ∈ i.read s.vm.addr ++ i.written s.vm.addr, ¬ InRom rom a.toNat)
    (alike : ∀ k < i.readLength, g.alike (mask (s.vm.addr + BitVec.ofNat 16 k))
      (mask (s.vm.addr - g.displaced + BitVec.ofNat 16 k))) :
    ∀ k < i.readLength, t.vm.memAt k = s.vm.memAt k := by
  intro k small
  have away : ¬ InRom rom (mask (s.vm.addr + BitVec.ofNat 16 k)).toNat := by
    apply outside _ (List.mem_append_left _ _)
    rw [Insn.read_eq]
    exact mem_span.mpr ⟨k, small, rfl⟩
  unfold VM.memAt
  rw [core.addr]
  refine core.memory.bytes _ _ (alike k small) away ?_
  rw [displaced_add]
  exact displaced_outside fits core.displaced away

/-! ### Instructions that stay -/

theorem straight_notJump {i : Insn} (straight : i.straight = true) :
    i ≠ .ret ∧ ∀ nnn, i ≠ .call nnn := by
  refine ⟨?_, fun nnn => ?_⟩ <;>
  · rintro rfl
    cases straight

theorem Patched.displacedAfter_small (patched : Patched p rom rom')
    (displaced : rom'.length + g.displaced.toNat ≤ rom.length) (pc : Nat) (i : Insn) :
    rom'.length + (g.displacedAfter p pc i).toNat ≤ rom.length := by
  cases i with
  | ldI y =>
    have shrinks := patched.shrinks pc
    simp only [Ghost.displacedAfter, BitVec.toNat_ofNat]
    omega
  | ldF x => exact patched.shorter
  | _ => exact displaced

theorem addrAfter_displaced {i : Insn} (plain : i.address = none) {vm vm' : VM}
    (regs : vm'.regs = vm.regs) (addr : vm'.addr = vm.addr - g.displaced) (pc : Nat) :
    i.addrAfter vm' = i.addrAfter vm - g.displacedAfter p pc i := by
  cases i with
  | ldI y => cases plain
  | ldF x =>
    simp only [Insn.addrAfter, Ghost.displacedAfter, regs]
    exact (BitVec.sub_zero _).symm
  | addI x =>
    simp only [Insn.addrAfter, Ghost.displacedAfter, regs, addr]
    exact BitVec.add_sub_comm.symm
  | _ => exact addr

theorem Core.straight (core : Core p rom rom' g s t) (patched : Patched p rom rom')
    {P : Platform Cursor} {op op' : Word} {i : Insn} (decoded : decode op = some i)
    (straight : i.straight = true) (plain : i.address = none)
    (outside : ∀ a ∈ i.read s.vm.addr ++ i.written s.vm.addr, ¬ InRom rom a.toNat)
    (alike : ∀ k < i.readLength, g.alike (mask (s.vm.addr + BitVec.ofNat 16 k))
      (mask (s.vm.addr - g.displaced + BitVec.ofNat 16 k)))
    (executed : i.exec P op s = (0#32, s')) (pc : Nat) :
    ∃ t', i.exec P op' t = (0#32, t') ∧
      Core p rom rom' ⟨g.displacedAfter p pc i, g.alikeAfter s.vm.addr i⟩ s' t' ∧
      ∃ d ∈ i.strides, s'.vm.programCounter = s.vm.programCounter + d ∧
        t'.vm.programCounter = t.vm.programCounter + d := by
  obtain ⟨t', executed', after, d, stride⟩ := @exec_alike Cursor P op op' i decoded straight s s' t
    core.alike (core.reads patched.fits outside alike) executed
  obtain ⟨notRet, notCall⟩ := straight_notJump straight
  obtain ⟨stack, pointer⟩ := exec_stack P op notRet notCall s
  obtain ⟨stack', pointer'⟩ := exec_stack P op' notRet notCall t
  have addr := exec_addr P op i s
  have addr' := exec_addr P op' i t
  rw [executed] at stack pointer addr
  rw [executed'] at stack' pointer' addr'
  have below : frames s'.vm = frames s.vm := by
    unfold frames
    rw [stack, pointer]
  have below' : frames t'.vm = frames t.vm := by
    unfold frames
    rw [stack', pointer']
  refine ⟨t', executed', ⟨after, ?_, ?_, ?_, ?_, ?_, ?_⟩, d, stride⟩
  · rw [addr, addr']
    exact addrAfter_displaced plain core.alike.regs core.addr pc
  · exact patched.displacedAfter_small core.displaced pc i
  · exact core.bytes_after patched.fits outside executed executed' rfl
  · rw [below, below']
    exact core.stack
  · rw [pointer, pointer']
    exact core.nonneg
  · rw [below]
    exact core.returns

/-! ### Stacks -/

theorem Patch.erase_pending (p : Patch) {v : Word} (behind : p.pending v = true)
    (stack : List Word) :
    p.erase (stack ++ [v]) = p.erase stack := by
  simp [Patch.erase, behind]

theorem Patch.erase_kept (p : Patch) {v : Word} (fresh : p.pending v = false) (stack : List Word) :
    p.erase (stack ++ [v]) = p.erase stack ++ [p.moved v] := by
  simp [Patch.erase, fresh]

theorem Core.shallower (core : Core p rom rom' g s t) :
    t.vm.stackPointer ≤ s.vm.stackPointer := by
  have short := congrArg List.length core.stack
  have filtered := List.length_filter_le (fun v => !p.pending v) (frames s.vm)
  rw [Patch.erase, List.length_map, frames_length] at short
  rw [frames_length] at filtered
  have nonneg := core.nonneg
  omega

/-! ### Control -/

theorem Ghost.after_eq {vm : VM} {i : Insn} (here : p.insn vm.programCounter.toNat = some i) :
    g.after p vm = ⟨g.displacedAfter p vm.programCounter.toNat i, g.alikeAfter vm.addr i⟩ := by
  unfold Ghost.after
  rw [here]

theorem Ghost.after_same {vm : VM} {i : Insn} (here : p.insn vm.programCounter.toNat = some i)
    (stores : i.writeLength = 0) (notLoad : ∀ y, i ≠ .ldI y) (notFont : ∀ x, i ≠ .ldF x) :
    g.after p vm = g := by
  have displaced : g.displacedAfter p vm.programCounter.toNat i = g.displaced := by
    cases i with
    | ldI y => exact absurd rfl (notLoad y)
    | ldF x => exact absurd rfl (notFont x)
    | _ => rfl
  have alike : g.alikeAfter vm.addr i = g.alike := if_pos stores
  rw [Ghost.after_eq here, displaced, alike]

theorem Core.setPc (core : Core p rom rom' g s t) (a b : Word) :
    Core p rom rom' g ⟨s.vm.setPc a, s.env⟩ ⟨t.vm.setPc b, t.env⟩ :=
  ⟨⟨core.alike.regs, core.alike.screen, core.alike.env⟩, core.addr, core.displaced,
    ⟨core.memory.intact, core.memory.intact', core.memory.bytes⟩, core.stack, core.nonneg,
    core.returns⟩

theorem Core.setPc_left (core : Core p rom rom' g s t) (a : Word) :
    Core p rom rom' g ⟨s.vm.setPc a, s.env⟩ t := core.setPc a t.vm.programCounter

theorem addr_toNat (y : Addr) : (y.setWidth 16).toNat = y.toNat := by
  have bound := y.isLt
  rw [BitVec.toNat_setWidth]
  omega

theorem Lands.inStep {y z : Addr} (lands : Lands p y z)
    (here : s.vm.programCounter = y.setWidth 16) (there : t.vm.programCounter = z.setWidth 16) :
    InStep p s t := by
  intro some
  rw [here, addr_toNat] at some
  obtain ⟨moved, notMerged⟩ := lands some
  rw [here, there, Patch.moved, addr_toNat]
  refine ⟨?_, notMerged⟩
  have bound := y.isLt
  apply BitVec.eq_of_toNat_eq
  rw [BitVec.toNat_sub, addr_toNat, addr_toNat, BitVec.toNat_ofNat]
  omega

section
variable (patched : Patched p rom rom') {pc : Word} {i : Insn}
  (here : p.insn pc.toNat = some i)
include patched here

theorem Patched.inStep_next (fate : (p.fate pc.toNat).isDeleted = false)
    (notFolded : p.fate pc.toNat ≠ .folded) (next : s.vm.programCounter = pc + 2)
    (next' : t.vm.programCounter = p.moved pc + 2) : InStep p s t := by
  intro _
  rw [next, next', patched.moved_next here, fate]
  refine ⟨rfl, fun merged => notFolded (patched.merges _ _ here ?_)⟩
  rwa [(patched.next_toNat here).1] at merged

theorem Patched.inStep_deleted (fate : (p.fate pc.toNat).isDeleted = true)
    (notFolded : p.fate pc.toNat ≠ .folded) (next : s.vm.programCounter = pc + 2)
    (still : t.vm.programCounter = p.moved pc) : InStep p s t := by
  intro _
  rw [next, still, patched.moved_next here, fate]
  refine ⟨(BitVec.add_zero _).symm, fun merged => notFolded (patched.merges _ _ here ?_)⟩
  rwa [(patched.next_toNat here).1] at merged

theorem Patched.inStep_skip (far : 4#16 ∈ i.strides) (next : s.vm.programCounter = pc + 4)
    (next' : t.vm.programCounter = p.moved pc + 4) : InStep p s t := by
  have four := (patched.next_toNat here).2
  intro some
  rw [next, four] at some
  obtain ⟨deleted, notMerged⟩ := patched.skips _ _ here far some
  rw [next, next', Patch.moved, Patch.moved, four, deleted]
  exact ⟨BitVec.add_sub_comm.symm, notMerged⟩

end

/-! ### Steps -/

theorem straight_of_plain {i : Insn} (plain : i.address = none) (notRet : i ≠ .ret) :
    i.straight = true := by
  cases i with
  | ret => exact absurd rfl notRet
  | jp y => cases plain
  | call y => cases plain
  | jpV0 y => cases plain
  | _ => rfl

theorem strides_cases {i : Insn} {d : Word} (among : d ∈ i.strides) : d = 2 ∨ d = 4 := by
  cases i with
  | skip c => simpa [Insn.strides] using among
  | skipKey x up => simpa [Insn.strides] using among
  | _ => exact .inl (List.mem_singleton.mp among)

theorem kept_stays {pc : Nat} (kept : p.fate pc = .kept) :
    (p.fate pc).isDeleted = false ∧ p.fate pc ≠ .folded := by
  rw [kept]
  exact ⟨rfl, Fate.noConfusion⟩

section
variable {tape : Tape} {undefinedShift : Byte → BitVec 32} {i j : Insn}

theorem Patched.executes (patched : Patched p rom rom') (intact : Intact rom s.vm.memory)
    (here : p.insn s.vm.programCounter.toNat = some i)
    (stepped : blockStep (tapePlatform tape undefinedShift) s = some s') :
    decode (opcodeAt s.vm.memory s.vm.programCounter) = some i ∧
      i.exec (tapePlatform tape undefinedShift) (opcodeAt s.vm.memory s.vm.programCounter) s =
        (0#32, s') := by
  have decoded := patched.fetch intact here
  obtain ⟨i', decoded', executed⟩ := blockStep_decodes _ stepped
  obtain rfl : i = i' := Option.some.inj (decoded.symm.trans decoded')
  exact ⟨decoded, executed⟩

section
variable (patched : Patched p rom rom') (core : Core p rom rom' g s t)
  (fine : Fine p rom g s.vm i) (same : t.vm.programCounter = p.moved s.vm.programCounter)
include patched core fine same

theorem Core.simulate_straight (kept : p.fate s.vm.programCounter.toNat = .kept)
    (placed : InPlace p rom' s.vm.programCounter.toNat i) (plain : i.address = none)
    (notRet : i ≠ .ret)
    (stepped : blockStep (tapePlatform tape undefinedShift) s = some s') :
    ∃ t', blockStep (tapePlatform tape undefinedShift) t = some t' ∧
      Core p rom rom' (g.after p s.vm) s' t' ∧ InStep p s' t' := by
  obtain ⟨decoded, executed⟩ := patched.executes core.memory.intact fine.here stepped
  have decoded' := placed.fetch patched core.memory.intact'
  rw [← same] at decoded'
  obtain ⟨t', executed', after, d, among, next, next'⟩ := @Core.straight p rom rom' g s s' t
    core patched _ _ (opcodeAt t.vm.memory t.vm.programCounter) i decoded
    (straight_of_plain plain notRet) plain fine.outside (fine.reads kept) executed
    s.vm.programCounter.toNat
  refine ⟨t', blockStep_of_exec _ decoded' executed', ?_, ?_⟩
  · rw [Ghost.after_eq fine.here]
    exact after
  · rw [same] at next'
    obtain ⟨fate, notFolded⟩ := kept_stays kept
    obtain rfl | rfl := strides_cases among
    · exact patched.inStep_next fine.here fate notFolded next next'
    · exact patched.inStep_skip fine.here among next next'

theorem Core.simulate_ldI (kept : p.fate s.vm.programCounter.toNat = .kept) {y z : Addr}
    (load : i = .ldI y) (placed : InPlace p rom' s.vm.programCounter.toNat (.ldI z))
    (loads : z.toNat + p.displacement s.vm.programCounter.toNat = y.toNat)
    (stepped : blockStep (tapePlatform tape undefinedShift) s = some s') :
    ∃ t', blockStep (tapePlatform tape undefinedShift) t = some t' ∧
      Core p rom rom' (g.after p s.vm) s' t' ∧ InStep p s' t' := by
  subst load
  obtain ⟨decoded, executed⟩ := patched.executes core.memory.intact fine.here stepped
  have decoded' := placed.fetch patched core.memory.intact'
  rw [← same] at decoded'
  cases executed
  refine ⟨_, blockStep_of_exec _ decoded' rfl, ?_, ?_⟩
  · rw [Ghost.after_eq fine.here]
    refine ⟨⟨core.alike.regs, core.alike.screen, core.alike.env⟩, ?_,
      patched.displacedAfter_small core.displaced _ _,
      ⟨core.memory.intact, core.memory.intact', core.memory.bytes⟩, core.stack, core.nonneg,
      core.returns⟩
    have bound := y.isLt
    apply BitVec.eq_of_toNat_eq
    show (z.setWidth 16).toNat = (y.setWidth 16 - BitVec.ofNat 16 (p.displacement _)).toNat
    rw [BitVec.toNat_sub, addr_toNat, addr_toNat, BitVec.toNat_ofNat]
    omega
  · obtain ⟨fate, notFolded⟩ := kept_stays kept
    exact patched.inStep_next fine.here fate notFolded rfl (congrArg (· + 2) same)

theorem Core.simulate_jp {y z : Addr} (jump : i = .jp y)
    (placed : InPlace p rom' s.vm.programCounter.toNat (.jp z)) (lands : Lands p y z)
    (stepped : blockStep (tapePlatform tape undefinedShift) s = some s') :
    ∃ t', blockStep (tapePlatform tape undefinedShift) t = some t' ∧
      Core p rom rom' (g.after p s.vm) s' t' ∧ InStep p s' t' := by
  subst jump
  obtain ⟨decoded, executed⟩ := patched.executes core.memory.intact fine.here stepped
  have decoded' := placed.fetch patched core.memory.intact'
  rw [← same] at decoded'
  cases executed
  refine ⟨_, blockStep_jp decoded', ?_, lands.inStep rfl rfl⟩
  rw [Ghost.after_same fine.here rfl nofun nofun]
  exact core.setPc _ _

theorem Core.simulate_call (kept : p.fate s.vm.programCounter.toNat = .kept) {y z : Addr}
    (call : i = .call y) (placed : InPlace p rom' s.vm.programCounter.toNat (.call z))
    (lands : Lands p y z)
    (stepped : blockStep (tapePlatform tape undefinedShift) s = some s') :
    ∃ t', blockStep (tapePlatform tape undefinedShift) t = some t' ∧
      Core p rom rom' (g.after p s.vm) s' t' ∧ InStep p s' t' := by
  subst call
  have decoded := patched.fetch core.memory.intact fine.here
  have decoded' := placed.fetch patched core.memory.intact'
  rw [← same] at decoded'
  rw [blockStep_call decoded, Option.ite_none_right_eq_some] at stepped
  obtain ⟨room, pushed⟩ := stepped
  cases pushed
  have room' : t.vm.stackPointer < (stackSize : Int) := Int.lt_of_le_of_lt core.shallower room
  obtain ⟨fate, notFolded⟩ := kept_stays kept
  obtain ⟨two, -⟩ := patched.next_toNat fine.here
  have fresh : p.pending (s.vm.programCounter + 2) = false := by
    rw [Patch.pending, two, Nat.add_sub_cancel, kept]
    rfl
  refine ⟨_, (blockStep_call decoded').trans (if_pos room'), ?_, lands.inStep rfl rfl⟩
  rw [Ghost.after_same fine.here rfl nofun nofun]
  refine ⟨⟨core.alike.regs, core.alike.screen, core.alike.env⟩, core.addr, core.displaced,
    ⟨core.memory.intact, core.memory.intact', core.memory.bytes⟩, ?_,
    ⟨Int.add_nonneg core.nonneg.1 (by decide), Int.add_nonneg core.nonneg.2 (by decide)⟩, ?_⟩
  · rw [frames_push s.vm _ core.nonneg.1, frames_push t.vm _ core.nonneg.2, p.erase_kept fresh,
      core.stack, same, patched.moved_next fine.here, fate]
    rfl
  · rw [frames_push s.vm _ core.nonneg.1]
    refine List.forall_mem_append.mpr ⟨core.returns, List.forall_mem_singleton.mpr ⟨?_, ?_⟩⟩
    · exact fun merged => notFolded (patched.merges _ _ fine.here (two ▸ merged))
    · rw [fresh]
      exact nofun

end

/-- Returns: the patched program has not pushed the address behind a call that became a jump,
and waits at its `RET`. -/
theorem Core.simulate_ret (patched : Patched p rom rom') (core : Core p rom rom' g s t)
    (here : p.insn s.vm.programCounter.toNat = some .ret)
    (ret' : opcodeAt t.vm.memory t.vm.programCounter = retWord)
    (stepped : blockStep (tapePlatform tape undefinedShift) s = some s') :
    (s'.vm.stackPointer.toNat < s.vm.stackPointer.toNat ∧ Core p rom rom' g s' t ∧ Waits p s' t) ∨
      ∃ t', blockStep (tapePlatform tape undefinedShift) t = some t' ∧
        Core p rom rom' g s' t' ∧ InStep p s' t' := by
  have ret := decode_ret (patched.fetch core.memory.intact here)
  rw [blockStep_ret ret] at stepped
  have positive : 0 < s.vm.stackPointer := by
    by_contra none
    rw [if_neg none] at stepped
    cases stepped
  rw [if_pos positive] at stepped
  cases stepped
  have popped := frames_pop s.vm positive
  have nonneg : 0 ≤ (popFrame s.vm).stackPointer := Int.sub_nonneg_of_le positive
  have below : (popFrame s.vm).stackPointer.toNat < s.vm.stackPointer.toNat := by
    show (s.vm.stackPointer - 1).toNat < _
    omega
  obtain ⟨notMerged, returnsHere⟩ := core.returns (popFrame s.vm).programCounter (by
    rw [popped]
    exact List.mem_append_right _ List.mem_cons_self)
  have returns : ∀ v ∈ frames (popFrame s.vm), p.fate v.toNat ≠ .merged ∧
      (p.pending v = true → p.insn v.toNat = some .ret) := fun v among =>
    core.returns v (popped ▸ List.mem_append_left _ among)
  have stack := core.stack
  rw [popped] at stack
  -- If the frame was pushed by a call that became a jump, there is none to pop on the other side.
  cases behind : p.pending (popFrame s.vm).programCounter with
  | true =>
    rw [p.erase_pending behind] at stack
    exact .inl ⟨below, ⟨⟨core.alike.regs, core.alike.screen, core.alike.env⟩, core.addr,
      core.displaced, ⟨core.memory.intact, core.memory.intact', core.memory.bytes⟩, stack,
      ⟨nonneg, core.nonneg.2⟩, returns⟩, returnsHere behind, ret'⟩
  | false =>
    rw [p.erase_kept behind] at stack
    have positive' : 0 < t.vm.stackPointer := by
      have long := congrArg List.length stack
      rw [frames_length, List.length_append, List.length_singleton] at long
      omega
    rw [frames_pop t.vm positive'] at stack
    obtain ⟨rest, top⟩ := List.append_inj' stack rfl
    refine .inr ⟨_, (blockStep_ret ret').trans (if_pos positive'),
      ⟨⟨core.alike.regs, core.alike.screen, core.alike.env⟩, core.addr, core.displaced,
        ⟨core.memory.intact, core.memory.intact', core.memory.bytes⟩, rest,
        ⟨nonneg, Int.sub_nonneg_of_le positive'⟩, returns⟩, fun _ => ⟨?_, notMerged⟩⟩
    exact List.singleton_inj.mp top

/-- A call that became a jump: the program pushes an address that the patched one does
without. -/
theorem Core.simulate_tailCall (patched : Patched p rom rom') (core : Core p rom rom' g s t)
    (same : t.vm.programCounter = p.moved s.vm.programCounter)
    (fate : p.fate s.vm.programCounter.toNat = .tailCall) {y z : Addr}
    (here : p.insn s.vm.programCounter.toNat = some (.call y))
    (placed : InPlace p rom' s.vm.programCounter.toNat (.jp z)) (lands : Lands p y z)
    (next : p.insn (s.vm.programCounter.toNat + 2) = some .ret)
    (stepped : blockStep (tapePlatform tape undefinedShift) s = some s') :
    ∃ t', blockStep (tapePlatform tape undefinedShift) t = some t' ∧
      Core p rom rom' (g.after p s.vm) s' t' ∧ InStep p s' t' := by
  have decoded := patched.fetch core.memory.intact here
  have decoded' := placed.fetch patched core.memory.intact'
  rw [← same] at decoded'
  rw [blockStep_call decoded, Option.ite_none_right_eq_some] at stepped
  obtain ⟨-, pushed⟩ := stepped
  cases pushed
  obtain ⟨two, -⟩ := patched.next_toNat here
  have behind : p.pending (s.vm.programCounter + 2) = true := by
    rw [Patch.pending, two, Nat.add_sub_cancel, fate]
    rfl
  refine ⟨_, blockStep_jp decoded', ?_, lands.inStep rfl rfl⟩
  rw [Ghost.after_same here rfl nofun nofun]
  refine ⟨⟨core.alike.regs, core.alike.screen, core.alike.env⟩, core.addr, core.displaced,
    ⟨core.memory.intact, core.memory.intact', core.memory.bytes⟩, ?_,
    ⟨Int.add_nonneg core.nonneg.1 (by decide), core.nonneg.2⟩, ?_⟩
  · rw [frames_push s.vm _ core.nonneg.1, p.erase_pending behind]
    exact core.stack
  · rw [frames_push s.vm _ core.nonneg.1]
    refine List.forall_mem_append.mpr ⟨core.returns, List.forall_mem_singleton.mpr ⟨?_, ?_⟩⟩
    · intro merged
      have folded := patched.merges _ _ here (two ▸ merged)
      rw [fate] at folded
      cases folded
    · rw [two]
      exact fun _ => next

/-! ### Steps that are deleted -/

theorem Core.simulate_noop (patched : Patched p rom rom') (core : Core p rom rom' g s t)
    (fine : Fine p rom g s.vm i) (same : t.vm.programCounter = p.moved s.vm.programCounter)
    (fate : p.fate s.vm.programCounter.toNat = .noop)
    (stepped : blockStep (tapePlatform tape undefinedShift) s = some s') :
    s' = advance s ∧ i.event s.vm = none ∧ Core p rom rom' (g.after p s.vm) s' t ∧
      InStep p s' t := by
  obtain ⟨decoded, executed⟩ := patched.executes core.memory.intact fine.here stepped
  have replaced := patched.replaced _ _ fine.here (by rw [fate]; exact Fate.noConfusion)
  rw [fate] at replaced
  obtain ⟨rfl, event, same'⟩ : s' = advance s ∧ i.event s.vm = none ∧ g.after p s.vm = g := by
    cases replaced with
    | move x =>
      rw [exec_move_self] at executed
      cases executed
      exact ⟨rfl, rfl, Ghost.after_same fine.here rfl nofun nofun⟩
    | add x =>
      rw [exec_add_zero] at executed
      cases executed
      exact ⟨rfl, rfl, Ghost.after_same fine.here rfl nofun nofun⟩
    | address y => exact absurd rfl (fine.noop fate y)
  refine ⟨rfl, event, ?_, ?_⟩
  · rw [same']
    exact core.setPc_left _
  · have deleted : (p.fate s.vm.programCounter.toNat).isDeleted = true := by
      rw [fate]
      rfl
    refine patched.inStep_deleted fine.here deleted ?_ rfl same
    rw [fate]
    exact Fate.noConfusion

/-- A load the next one undoes changes registers or the address register. -/
structure Undoes (i j : Insn) (s s₁ : State Cursor) : Prop where
  changed : ∃ regs addr, s₁ = ⟨{ s.vm with regs := regs, addr := addr }.setPc
    (s.vm.programCounter + 2), s.env⟩
  addr : s₁.vm.addr = s.vm.addr ∧ (∀ y, i ≠ .ldI y) ∨ ∃ y, j = .ldI y
  notFont : ∀ x, i ≠ .ldF x
  stores : i.writeLength = 0 ∧ j.writeLength = 0
  events : ∀ vm, i.event vm = none ∧ j.event vm = none

theorem Harmless.undoes (harmless : Harmless i j) {P : Platform Cursor} {op : Word}
    {s₁ : State Cursor} (executed : i.exec P op s = (0#32, s₁)) : Undoes i j s s₁ := by
  cases harmless with
  | load loads reloads =>
    obtain ⟨v, loaded⟩ := exec_loads (P := P) loads op s
    rw [loaded] at executed
    cases executed
    have second : j.writeLength = 0 ∧ ∀ vm, j.event vm = none := by
      cases reloads <;> exact ⟨rfl, fun _ => rfl⟩
    refine ⟨⟨_, s.vm.addr, rfl⟩, .inl ⟨rfl, ?_⟩, ?_, ⟨?_, second.1⟩, fun vm => ⟨?_, second.2 vm⟩⟩
    · cases loads <;> nofun
    · cases loads <;> nofun
    · cases loads <;> rfl
    · cases loads <;> rfl
  | restore x =>
    cases executed
    refine ⟨⟨(restoreLoop x s.vm).regs, s.vm.addr, ?_⟩, .inl ⟨?_, nofun⟩, nofun, ⟨rfl, rfl⟩,
      fun _ => ⟨rfl, rfl⟩⟩
    · rw [restoreLoop_regs]
      rfl
    · rw [restoreLoop_regs]
      rfl
  | address y z =>
    cases executed
    exact ⟨⟨s.vm.regs, _, rfl⟩, .inr ⟨z, rfl⟩, nofun, ⟨rfl, rfl⟩, fun _ => ⟨rfl, rfl⟩⟩

theorem Undoes.keeps {s₁ : State Cursor} (undoes : Undoes i j s s₁) :
    s₁.vm.programCounter = s.vm.programCounter + 2 ∧
      s₁.vm.stackPointer = s.vm.stackPointer ∧ s₁.vm.memory = s.vm.memory := by
  obtain ⟨regs, addr, rfl⟩ := undoes.changed
  exact ⟨rfl, rfl, rfl⟩

theorem Harmless.absorbed (harmless : Harmless i j) {P : Platform Cursor}
    (answers : Answers P) : Absorbed P i j := by
  cases harmless with
  | load loads reloads => exact loads_absorbed loads reloads answers
  | restore x => exact restore_absorbed x
  | address y z => exact ldI_absorbed y z

/-! ### The simulation -/

end

end

/-- The program, with what is remembered of its run. -/
structure Traced where
  state : State Cursor
  ghost : Ghost

def tracedStep (tape : Tape) (undefinedShift : Byte → BitVec 32) (p : Patch) (c : Traced) :
    Option Traced :=
  (blockStep (tapePlatform tape undefinedShift) c.state).map fun s =>
    ⟨s, c.ghost.after p c.state.vm⟩

section
variable {p : Patch} {rom rom' : List Byte} {tape : Tape} {undefinedShift : Byte → BitVec 32}
  {c x : Traced} {t : State Cursor} {i : Insn}

theorem tracedStep_some :
    tracedStep tape undefinedShift p c = some x ↔
      blockStep (tapePlatform tape undefinedShift) c.state = some x.state ∧
        x.ghost = c.ghost.after p c.state.vm := by
  unfold tracedStep
  rw [Option.map_eq_some_iff]
  constructor
  · rintro ⟨s, stepped, rfl⟩
    exact ⟨stepped, rfl⟩
  · rintro ⟨stepped, ghost⟩
    exact ⟨x.state, stepped, by rw [← ghost]⟩

/-- A state behind a load the next instruction undoes, beside the one without the load. -/
structure Undone (tape : Tape) (undefinedShift : Byte → BitVec 32) (p : Patch)
    (rom : List Byte) (c b : Traced) : Prop where
  control : b.state.vm.programCounter = c.state.vm.programCounter
  depth : b.state.vm.stackPointer = c.state.vm.stackPointer
  memory : b.state.vm.memory = c.state.vm.memory
  fine : ∀ i, Fine p rom c.ghost c.state.vm i → Fine p rom b.ghost b.state.vm i ∧
    (∀ vm, i.event vm = none)
  step : ∀ x, tracedStep tape undefinedShift p c = some x →
    tracedStep tape undefinedShift p b = some x

/-- The program beside the patched one: in step or both at a `RET`, or behind a load that the
next instruction undoes, or behind the first part of a sum. -/
inductive Rel (tape : Tape) (undefinedShift : Byte → BitVec 32) (p : Patch)
    (rom rom' : List Byte) (c : Traced) (t : State Cursor) : Prop where
  | inStep (core : Core p rom rom' c.ghost c.state t) (inStep : InStep p c.state t)
  | waits (core : Core p rom rom' c.ghost c.state t) (waits : Waits p c.state t)
  | undone {b : Traced} (core : Core p rom rom' b.ghost b.state t) (inStep : InStep p b.state t)
      (undone : Undone tape undefinedShift p rom c b)
  | folding {b : Traced} (core : Core p rom rom' b.ghost b.state t) (inStep : InStep p b.state t)
      (fate : p.fate b.state.vm.programCounter.toNat = .folded)
      (here : (p.insn b.state.vm.programCounter.toNat).isSome)
      (step : tracedStep tape undefinedShift p b = some c)

/-- What falls while the patched program stands still. -/
def Traced.rank (c : Traced) : Nat :=
  c.state.vm.stackPointer.toNat * 65536 + (65535 - c.state.vm.programCounter.toNat)

/-- A step of the program is matched by one of the patched program that shows the same, or
shows nothing and brings it nearer to such a step. -/
def Matches (tape : Tape) (undefinedShift : Byte → BitVec 32) (p : Patch)
    (rom rom' : List Byte) (c x : Traced) (t : State Cursor) : Prop :=
  (c.state.vm.shows = none ∧ x.rank < c.rank ∧ Rel tape undefinedShift p rom rom' x t) ∨
    t.vm.shows = c.state.vm.shows ∧
      ∃ t', blockStep (tapePlatform tape undefinedShift) t = some t' ∧
        Rel tape undefinedShift p rom rom' x t'

theorem shows_eq {vm : VM} (decoded : decode (opcodeAt vm.memory vm.programCounter) = some i) :
    vm.shows = (i.event vm).map fun e => (e, vm.regs) := by
  unfold VM.shows
  rw [decoded]
  rfl

theorem rank_next (patched : Patched p rom rom')
    (here : p.insn c.state.vm.programCounter.toNat = some i)
    (depth : x.state.vm.stackPointer = c.state.vm.stackPointer)
    (next : x.state.vm.programCounter = c.state.vm.programCounter + 2) : x.rank < c.rank := by
  have small := rom_small (patched.inside _ _ here).1 patched.fits
  unfold Traced.rank
  rw [depth, next, (patched.next_toNat here).1]
  omega

theorem rank_pop (shallower : x.state.vm.stackPointer.toNat < c.state.vm.stackPointer.toNat) :
    x.rank < c.rank := by
  unfold Traced.rank
  omega

/-- Behind a load that the next instruction undoes the program goes on as if it had skipped
the load. -/
theorem Core.undone (patched : Patched p rom rom')
    (answers : Answers (tapePlatform tape undefinedShift))
    (core : Core p rom rom' c.ghost c.state t) (fine : Fine p rom c.ghost c.state.vm i) {j : Insn}
    (next : p.insn (c.state.vm.programCounter.toNat + 2) = some j) (harmless : Harmless i j)
    (stepped : tracedStep tape undefinedShift p c = some x) :
    Undone tape undefinedShift p rom x ⟨advance c.state, c.ghost⟩ := by
  obtain ⟨stepped, ghost⟩ := tracedStep_some.mp stepped
  obtain ⟨-, executed⟩ := patched.executes core.memory.intact fine.here stepped
  have undoes := harmless.undoes executed
  obtain ⟨control, depth, memory⟩ := undoes.keeps
  have control' : (advance c.state).vm.programCounter = x.state.vm.programCounter := control.symm
  have nextHere : p.insn x.state.vm.programCounter.toNat = some j := by
    rw [control, (patched.next_toNat fine.here).1]
    exact next
  -- either the load left the address register alone, or the next one is an `LD I`
  have unchanged : x.state.vm.addr = c.state.vm.addr ∧ x.ghost = c.ghost ∨ ∃ y, j = .ldI y :=
    undoes.addr.imp_left fun ⟨sameAddr, notLoad⟩ => ⟨sameAddr, by
      rw [ghost]
      exact Ghost.after_same fine.here undoes.stores.1 notLoad undoes.notFont⟩
  refine ⟨control', depth.symm, memory.symm, fun i' fine' => ?_, fun y steppedX => ?_⟩
  · obtain rfl : j = i' := Option.some.inj (nextHere.symm.trans fine'.here)
    refine ⟨⟨control' ▸ nextHere, fine'.notBranch, ?_, control' ▸ fine'.noop,
      control' ▸ fine'.overwritten, ?_⟩, fun vm => (undoes.events vm).2⟩
    · obtain ⟨sameAddr, -⟩ | ⟨y, rfl⟩ := unchanged
      · exact sameAddr ▸ fine'.outside
      · exact nofun
    · obtain ⟨sameAddr, sameGhost⟩ | ⟨y, rfl⟩ := unchanged
      · rw [← sameGhost]
        exact sameAddr ▸ control' ▸ fine'.reads
      · exact nofun
  · obtain ⟨steppedX, ghostX⟩ := tracedStep_some.mp steppedX
    have intact : Intact rom x.state.vm.memory := memory ▸ core.memory.intact
    obtain ⟨decodedX, executedX⟩ := patched.executes intact nextHere steppedX
    have executed' := harmless.absorbed answers _ _ _ _ _ decodedX executed executedX
    rw [← control', memory] at decodedX executed'
    -- the second load leaves the ghost as it would be without the first
    have ghosts : x.ghost.after p x.state.vm = c.ghost.after p (advance c.state).vm := by
      have alike : x.ghost.alike = c.ghost.alike := by
        rw [ghost, Ghost.after_eq fine.here]
        exact if_pos undoes.stores.1
      rw [Ghost.after_eq nextHere, Ghost.after_eq (control' ▸ nextHere), control']
      unfold Ghost.alikeAfter
      rw [if_pos undoes.stores.2, if_pos undoes.stores.2, alike]
      congr 1
      obtain ⟨-, sameGhost⟩ | ⟨y, rfl⟩ := unchanged
      · rw [sameGhost]
      · rfl
    exact tracedStep_some.mpr ⟨blockStep_of_exec _ decodedX executed', ghostX.trans ghosts⟩

theorem Core.simulate_overwritten (patched : Patched p rom rom')
    (answers : Answers (tapePlatform tape undefinedShift))
    (core : Core p rom rom' c.ghost c.state t) (fine : Fine p rom c.ghost c.state.vm i)
    (same : t.vm.programCounter = p.moved c.state.vm.programCounter)
    (fate : p.fate c.state.vm.programCounter.toNat = .overwritten)
    (stepped : tracedStep tape undefinedShift p c = some x) :
    i.event c.state.vm = none ∧ x.rank < c.rank ∧ Rel tape undefinedShift p rom rom' x t := by
  obtain ⟨-, executed⟩ :=
    patched.executes core.memory.intact fine.here (tracedStep_some.mp stepped).1
  have replaced := patched.replaced _ _ fine.here (by rw [fate]; exact Fate.noConfusion)
  rw [fate] at replaced
  obtain ⟨j, next⟩ : ∃ j, p.insn (c.state.vm.programCounter.toNat + 2) = some j := by
    cases replaced with
    | overwritten next => exact ⟨_, next⟩
  have harmless := fine.overwritten fate j next
  have undoes := harmless.undoes executed
  obtain ⟨control, depth, -⟩ := undoes.keeps
  have undone := core.undone patched answers fine next harmless stepped
  refine ⟨(undoes.events _).1, rank_next patched fine.here depth control,
    .undone (b := ⟨advance c.state, c.ghost⟩) (core.setPc_left _) ?_ undone⟩
  have deleted : (p.fate c.state.vm.programCounter.toNat).isDeleted = true := by
    rw [fate]
    rfl
  refine patched.inStep_deleted fine.here deleted ?_ rfl same
  rw [fate]
  exact Fate.noConfusion

theorem Core.simulate_merged (patched : Patched p rom rom') {b : Traced}
    (core : Core p rom rom' b.ghost b.state t) (inStep : InStep p b.state t)
    (fate : p.fate b.state.vm.programCounter.toNat = .folded)
    (step : tracedStep tape undefinedShift p b = some c)
    (here : (p.insn b.state.vm.programCounter.toNat).isSome)
    (stepped : tracedStep tape undefinedShift p c = some x) :
    Matches tape undefinedShift p rom rom' c x t := by
  obtain ⟨i, here⟩ := Option.isSome_iff_exists.mp here
  obtain ⟨same, -⟩ := inStep (Option.isSome_of_eq_some here)
  obtain ⟨step, ghost⟩ := tracedStep_some.mp step
  obtain ⟨stepped, ghost'⟩ := tracedStep_some.mp stepped
  have replaced := patched.replaced _ _ here (by rw [fate]; exact Fate.noConfusion)
  rw [fate] at replaced
  cases replaced with
  | @folded r m n placed next merged =>
    obtain ⟨two, -⟩ := patched.next_toNat here
    obtain ⟨decoded, executed⟩ := patched.executes core.memory.intact here step
    have sameGhost : c.ghost = b.ghost := by
      rw [ghost]
      exact Ghost.after_same here rfl nofun nofun
    have after : c.state = ⟨(b.state.vm.setReg r m).setPc (b.state.vm.programCounter + 2),
        b.state.env⟩ := (congrArg Prod.snd executed).symm
    have next' : p.insn c.state.vm.programCounter.toNat = some (.add r n) := by
      rw [after]
      exact (congrArg p.insn two).trans next
    have intact : Intact rom c.state.vm.memory := after ▸ core.memory.intact
    obtain ⟨decodedC, executedC⟩ := patched.executes intact next' stepped
    have decoded' := placed.fetch patched core.memory.intact'
    rw [← same] at decoded'
    have after' : x.state = ⟨(c.state.vm.setReg r (c.state.vm.regs r + n)).setPc
        (c.state.vm.programCounter + 2), c.state.env⟩ := (congrArg Prod.snd executedC).symm
    -- Two steps of the program, the load and the addition, are one of the patched one.
    refine .inr ⟨?_, _, blockStep_of_exec _ decoded' rfl, .inStep ?_ ?_⟩
    · rw [shows_eq decodedC, shows_eq decoded']
      rfl
    · rw [ghost', Ghost.after_same next' rfl nofun nofun, sameGhost, after', after]
      refine ⟨⟨?_, core.alike.screen, core.alike.env⟩, core.addr, core.displaced,
        ⟨core.memory.intact, core.memory.intact', core.memory.bytes⟩, core.stack, core.nonneg,
        core.returns⟩
      show Function.update t.vm.regs r (m + n) = _
      rw [core.alike.regs]
      exact (add_ld_regs r m n b.state.vm.regs).symm
    · have control : c.state.vm.programCounter = b.state.vm.programCounter + 2 := by
        rw [after]
        rfl
      have fateC : p.fate c.state.vm.programCounter.toNat = .merged := by
        rw [control, two]
        exact merged
      refine patched.inStep_deleted next' ?_ ?_ ?_ ?_
      · rw [fateC]
        rfl
      · rw [fateC]
        exact Fate.noConfusion
      · rw [after']
        rfl
      · have kept : (p.fate b.state.vm.programCounter.toNat).isDeleted = false := by
          rw [fate]
          rfl
        rw [control, patched.moved_next here, kept]
        exact congrArg (· + 2) same

theorem Core.matches_ret (patched : Patched p rom rom')
    (core : Core p rom rom' c.ghost c.state t)
    (here : p.insn c.state.vm.programCounter.toNat = some .ret)
    (ret' : opcodeAt t.vm.memory t.vm.programCounter = retWord)
    (stepped : tracedStep tape undefinedShift p c = some x) :
    Matches tape undefinedShift p rom rom' c x t := by
  obtain ⟨step, ghost⟩ := tracedStep_some.mp stepped
  have shown := shows_eq (patched.fetch core.memory.intact here)
  have still : x.ghost = c.ghost := ghost.trans (Ghost.after_same here rfl nofun nofun)
  obtain ⟨shallower, core', waits⟩ | ⟨t', step', core', inStep'⟩ :=
    core.simulate_ret patched here ret' step
  · exact .inl ⟨by rw [shown]; rfl, rank_pop shallower, .waits (still ▸ core') waits⟩
  · have decoded' : decode (opcodeAt t.vm.memory t.vm.programCounter) = some .ret := by
      rw [ret']
      rfl
    refine .inr ⟨?_, t', step', .inStep (still ▸ core') inStep'⟩
    rw [shown, shows_eq decoded']
    rfl

theorem matches_moved (shown : t.vm.shows = c.state.vm.shows)
    (ghost : x.ghost = c.ghost.after p c.state.vm)
    (moves : ∃ t', blockStep (tapePlatform tape undefinedShift) t = some t' ∧
      Core p rom rom' (c.ghost.after p c.state.vm) x.state t' ∧ InStep p x.state t') :
    Matches tape undefinedShift p rom rom' c x t := by
  obtain ⟨t', step', core', inStep'⟩ := moves
  exact .inr ⟨shown, t', step', .inStep (ghost ▸ core') inStep'⟩

theorem Core.matches_kept (patched : Patched p rom rom')
    (core : Core p rom rom' c.ghost c.state t) (fine : Fine p rom c.ghost c.state.vm i)
    (same : t.vm.programCounter = p.moved c.state.vm.programCounter)
    (fate : p.fate c.state.vm.programCounter.toNat = .kept) {j : Insn}
    (placed : InPlace p rom' c.state.vm.programCounter.toNat j)
    (stays : Stays p c.state.vm.programCounter.toNat i j)
    (stepped : tracedStep tape undefinedShift p c = some x) :
    Matches tape undefinedShift p rom rom' c x t := by
  obtain ⟨step, ghost⟩ := tracedStep_some.mp stepped
  have shown := shows_eq (patched.fetch core.memory.intact fine.here)
  have decoded' := placed.fetch patched core.memory.intact'
  rw [← same] at decoded'
  have shown' := shows_eq decoded'
  cases stays with
  | same plain =>
    by_cases ret : i = .ret
    · subst ret
      exact core.matches_ret patched fine.here (decode_ret decoded') stepped
    · refine matches_moved ?_ ghost
        (core.simulate_straight patched fine same fate placed plain ret step)
      rw [shown, shown', core.alike.regs, event_alike core.alike.regs
        (core.reads patched.fits fine.outside (fine.reads fate))]
  | jp lands =>
    refine matches_moved ?_ ghost (core.simulate_jp patched fine same rfl placed lands step)
    rw [shown, shown']
    rfl
  | call lands =>
    refine matches_moved ?_ ghost
      (core.simulate_call patched fine same fate rfl placed lands step)
    rw [shown, shown']
    rfl
  | ldI loads =>
    refine matches_moved ?_ ghost (core.simulate_ldI patched fine same fate rfl placed loads step)
    rw [shown, shown']
    rfl
  | jpV0 => exact absurd rfl (fine.notBranch _)

theorem Core.simulate_inStep (patched : Patched p rom rom')
    (answers : Answers (tapePlatform tape undefinedShift))
    (core : Core p rom rom' c.ghost c.state t) (inStep : InStep p c.state t)
    (fine : Fine p rom c.ghost c.state.vm i)
    (stepped : tracedStep tape undefinedShift p c = some x) :
    Matches tape undefinedShift p rom rom' c x t := by
  obtain ⟨same, notMerged⟩ := inStep (Option.isSome_of_eq_some fine.here)
  obtain ⟨step, ghost⟩ := tracedStep_some.mp stepped
  obtain ⟨decoded, executed⟩ := patched.executes core.memory.intact fine.here step
  have replaced := patched.replaced _ _ fine.here notMerged
  have shown := shows_eq decoded
  cases fate : p.fate c.state.vm.programCounter.toNat with
  | merged => exact absurd fate notMerged
  | noop =>
    obtain ⟨after, event, core', inStep'⟩ := core.simulate_noop patched fine same fate step
    refine .inl ⟨by rw [shown, event]; rfl, rank_next patched fine.here ?_ ?_, ?_⟩
    · rw [after]
      rfl
    · rw [after]
      rfl
    · exact .inStep (ghost ▸ core') inStep'
  | overwritten =>
    obtain ⟨event, falls, rel⟩ := core.simulate_overwritten patched answers fine same fate stepped
    exact .inl ⟨by rw [shown, event]; rfl, falls, rel⟩
  | folded =>
    -- the patched program waits for the `ADD`
    rw [fate] at replaced
    cases replaced with
    | folded placed next merged =>
      have after : _ = x.state := congrArg Prod.snd executed
      refine .inl ⟨by rw [shown]; rfl, rank_next patched fine.here ?_ ?_,
        .folding core inStep fate (Option.isSome_of_eq_some fine.here) stepped⟩
      · rw [← after]
        rfl
      · rw [← after]
        rfl
  | tailCall =>
    rw [fate] at replaced
    cases replaced with
    | @tailCall y z placed lands next =>
      have decoded' := placed.fetch patched core.memory.intact'
      rw [← same] at decoded'
      refine matches_moved ?_ ghost
        (core.simulate_tailCall patched same fate fine.here placed lands next step)
      rw [shown, shows_eq decoded']
      rfl
  | kept =>
    rw [fate] at replaced
    cases replaced with
    | kept placed stays => exact core.matches_kept patched fine same fate placed stays stepped

theorem Rel.simulate (patched : Patched p rom rom')
    (answers : Answers (tapePlatform tape undefinedShift))
    (rel : Rel tape undefinedShift p rom rom' c t) (fine : Fine p rom c.ghost c.state.vm i)
    (stepped : tracedStep tape undefinedShift p c = some x) :
    Matches tape undefinedShift p rom rom' c x t := by
  cases rel with
  | inStep core inStep => exact core.simulate_inStep patched answers inStep fine stepped
  | waits core waits => exact core.matches_ret patched waits.1 waits.2 stepped
  | @undone b core inStep undone =>
    obtain ⟨fine', silent⟩ := undone.fine i fine
    have silentB : b.state.vm.shows = none := by
      rw [shows_eq (patched.fetch core.memory.intact fine'.here), silent]
      rfl
    have silentC : c.state.vm.shows = none := by
      rw [shows_eq (patched.fetch (undone.memory ▸ core.memory.intact) fine.here), silent]
      rfl
    have sameRank : b.rank = c.rank := by
      unfold Traced.rank
      rw [undone.control, undone.depth]
    obtain ⟨-, falls, rel⟩ | ⟨shown, matched⟩ :=
      core.simulate_inStep patched answers inStep fine' (undone.step x stepped)
    · exact .inl ⟨silentC, Nat.lt_of_lt_of_eq falls sameRank, rel⟩
    · exact .inr ⟨by rw [shown, silentB, silentC], matched⟩
  | folding core inStep fate here step =>
    exact core.simulate_merged patched inStep fate step here stepped

theorem Patched.ranked (patched : Patched p rom rom')
    (answers : Answers (tapePlatform tape undefinedShift)) :
    Run.Ranked (tracedStep tape undefinedShift p) (blockStep (tapePlatform tape undefinedShift))
      (fun c => c.state.vm.shows) (fun t => t.vm.shows)
      (fun c => ∃ i, Fine p rom c.ghost c.state.vm i) Traced.rank
      (Rel tape undefinedShift p rom rom') where
  simulate _ _ _ rel fine stepped := by
    obtain ⟨_, fine⟩ := fine
    exact rel.simulate patched answers fine stepped

theorem loadRom_outside {a : Addr} (outside : ¬ InRom rom a.toNat) :
    loadRom rom a = loadRom [] a := by
  unfold loadRom
  split
  · rfl
  · rename_i above
    have beyond : rom.length ≤ a.toNat - entrypoint.toNat := by
      unfold InRom at outside
      omega
    rw [List.getD_eq_getElem?_getD, List.getElem?_eq_none beyond]
    rfl

theorem Patched.rel_start (patched : Patched p rom rom') :
    Rel tape undefinedShift p rom rom' ⟨interpreterStart rom, .start⟩ (interpreterStart rom') := by
  refine .inStep ⟨⟨rfl, rfl, rfl⟩, (BitVec.sub_zero _).symm, patched.shorter,
    ⟨intact_boot rom, intact_boot rom', fun a b alike outside outside' => ?_⟩, rfl,
    ⟨Int.le_refl 0, Int.le_refl 0⟩, nofun⟩ fun _ => ⟨?_, patched.start.2⟩
  · exact (loadRom_outside outside').trans (alike.symm.trans (loadRom_outside outside).symm)
  · show entrypoint = entrypoint - BitVec.ofNat 16 (p.deleted 512)
    rw [patched.start.1]
    exact (BitVec.sub_zero _).symm

end

end ChipEight.Opt
