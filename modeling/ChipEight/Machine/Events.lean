import ChipEight.Machine.Flow
import ChipEight.Machine.Spills

/-! What an instruction shows, and what it does on a machine laid out otherwise.

What can be seen of a run are the display operations, the timer writes and the stores, each
with the registers at it. But for its control flow an instruction sees of memory only the
bytes it reads as data, so it does the same where the code and these bytes are elsewhere.
-/

set_option autoImplicit false

namespace ChipEight

open Interpreter

/-- What is seen of an instruction. The height of a sprite is its number of bytes. -/
inductive Observed where
  | clear
  | draw (x y : Byte) (sprite : List Byte)
  | setDelay (v : Byte)
  | setSound (v : Byte)
  | store (values : List Byte)
  deriving DecidableEq, Repr

/-- The bytes `store_bcd` and `save_registers` store, in order. -/
def Insn.stored (vm : VM) : Insn → List Byte
  | .bcd x => [vm.regs x / 100#8, vm.regs x % 100#8 / 10#8, vm.regs x % 100#8 % 10#8]
  | .save x => (List.range (x.toNat + 1)).map fun i => vm.regs (BitVec.ofNat 4 i)
  | _ => []

def Insn.event (vm : VM) : Insn → Option Observed
  | .cls => some .clear
  | .drw x y n => some (.draw (vm.regs x) (vm.regs y) ((List.range n.toNat).map vm.memAt))
  | .setDelay x => some (.setDelay (vm.regs x))
  | .setSound x => some (.setSound (vm.regs x))
  | .bcd x => some (.store ((Insn.bcd x).stored vm))
  | .save x => some (.store ((Insn.save x).stored vm))
  | _ => none

/-- What is seen of a machine at its next instruction. -/
def VM.shows (vm : VM) : Option (Observed × (Reg → Byte)) :=
  (decode (opcodeAt vm.memory vm.programCounter)).bind fun i =>
    (i.event vm).map fun e => (e, vm.regs)

/-! ## Bytes -/

/-- How many bytes an instruction reads as data. -/
def Insn.readLength : Insn → Nat
  | .drw _ _ n => n.toNat
  | .restore x => x.toNat + 1
  | _ => 0

/-- How many bytes an instruction stores. -/
def Insn.writeLength : Insn → Nat
  | .bcd _ => 3
  | .save x => x.toNat + 1
  | _ => 0

theorem Insn.read_eq (i : Insn) (addr : Word) : i.read addr = span addr i.readLength := by
  cases i <;> rfl

theorem Insn.written_eq (i : Insn) (addr : Word) : i.written addr = span addr i.writeLength := by
  cases i <;> rfl

theorem exec_stored {E : Type} (P : Platform E) (op : Word) (i : Insn) (s : State E) {j : Nat}
    (inside : j < i.writeLength) :
    (i.exec P op s).2.vm.memory (mask (s.vm.addr + BitVec.ofNat 16 j)) =
      (i.stored s.vm).getD j 0#8 := by
  cases i with
  | bcd x =>
    have stores := @stores_at s.vm.addr (fun j => ((Insn.bcd x).stored s.vm).getD j 0#8) 3
      (by decide) s.vm rfl j inside
    exact stores
  | save x =>
    have short : x.toNat + 1 ≤ 4096 := by omega
    have stores := @stores_at s.vm.addr (fun i => s.vm.regs (BitVec.ofNat 4 i)) (x.toNat + 1)
      short s.vm rfl j inside
    rw [← saveLoop_eq] at stores
    refine Eq.trans stores ?_
    have short' : j < x.toNat + 1 := inside
    simp [Insn.stored, List.getD_eq_getElem?_getD, short']
  | _ => exact absurd inside (Nat.not_lt_zero j)

/-! ## Elsewhere -/

/-- Two machines that differ only in how they are laid out: in memory, in where control and
the address register are, and in what is on the stack. -/
structure Alike {E : Type} (s t : State E) : Prop where
  regs : t.vm.regs = s.vm.regs
  screen : t.vm.screen = s.vm.screen
  env : t.env = s.env

/-- The address an instruction takes. -/
def Insn.address : Insn → Option Addr
  | .jp z => some z
  | .call z => some z
  | .ldI z => some z
  | .jpV0 z => some z
  | _ => none

/-- The instruction with another address. -/
def Insn.withAddress (z : Addr) : Insn → Insn
  | .jp _ => .jp z
  | .call _ => .call z
  | .ldI _ => .ldI z
  | .jpV0 _ => .jpV0 z
  | i => i

/-- An instruction that goes on behind itself. -/
def Insn.straight : Insn → Bool
  | .ret => false
  | .jp _ => false
  | .call _ => false
  | .jpV0 _ => false
  | _ => true

/-- How far it goes on. -/
def Insn.strides : Insn → List Word
  | .skip _ => [2, 4]
  | .skipKey _ _ => [2, 4]
  | _ => [2]

theorem saveLoop_only (x : Reg) (vm : VM) : ∃ m, saveLoop x vm = { vm with memory := m } := by
  unfold saveLoop
  generalize List.range (x.toNat + 1) = is
  induction is generalizing vm with
  | nil => exact ⟨vm.memory, rfl⟩
  | cons i is ih => exact ih (vm.storeAt i (vm.regs (BitVec.ofNat 4 i)))

theorem restoreLoop_alike (x : Reg) {vm vm' : VM} (regs : vm'.regs = vm.regs)
    (reads : ∀ j < x.toNat + 1, vm'.memAt j = vm.memAt j) :
    (restoreLoop x vm').regs = (restoreLoop x vm).regs := by
  rw [restoreLoop_regs, restoreLoop_regs]
  funext y
  dsimp only
  split
  · rename_i low
    exact reads y.toNat (Nat.lt_succ_of_le low)
  · rw [regs]

section
variable {E : Type} {P : Platform E}

theorem scanKeys_alike (x : Reg) (keys : BitVec 32) {s t : State E} (alike : Alike s t) :
    Alike (scanKeys P x keys s) (scanKeys P x keys t) := by
  unfold scanKeys
  generalize List.range 16 = is
  induction is generalizing s t with
  | nil => exact alike
  | cons i is ih =>
    rw [List.foldl_cons, List.foldl_cons]
    apply ih
    obtain ⟨regs, screen, env⟩ := alike
    refine ⟨?_, ?_, congrArg (P.clearKey _) env⟩
    · unfold scanKey
      split
      · exact congrArg (fun r => Function.update r x _) regs
      · exact regs
    · unfold scanKey
      split <;> exact screen

theorem drawSprite_alike (x y n : Reg) {vm vm' : VM} (regs : vm'.regs = vm.regs)
    (screen : vm'.screen = vm.screen) (reads : ∀ j < n.toNat, vm'.memAt j = vm.memAt j) :
    (vm'.drawSprite x y n).regs = (vm.drawSprite x y n).regs ∧
      (vm'.drawSprite x y n).screen = (vm.drawSprite x y n).screen := by
  have sprite : (List.range n.toNat).map vm'.memAt = (List.range n.toNat).map vm.memAt :=
    List.map_congr_left fun j inside => reads j (List.mem_range.mp inside)
  unfold VM.drawSprite
  rw [sprite, regs, screen]
  exact ⟨rfl, rfl⟩

/-- An instruction without a jump does the same on a machine laid out otherwise, where it
reads the same bytes as data. -/
theorem exec_alike {op op' : Word} {i : Insn} (decoded : decode op = some i)
    (straight : i.straight = true) {s s' t : State E} (alike : Alike s t)
    (reads : ∀ j < i.readLength, t.vm.memAt j = s.vm.memAt j)
    (executed : i.exec P op s = (0#32, s')) :
    ∃ t', i.exec P op' t = (0#32, t') ∧ Alike s' t' ∧ ∃ d ∈ i.strides,
      s'.vm.programCounter = s.vm.programCounter + d ∧
        t'.vm.programCounter = t.vm.programCounter + d := by
  -- Where control goes is told by the distance, as the two programs are laid out differently.
  have four (pc : Word) : pc + 2 + 2 = pc + 4 := BitVec.add_assoc pc 2#16 2#16
  have far : (4 : Word) ∈ ([2, 4] : List Word) := by decide
  have near : (2 : Word) ∈ ([2, 4] : List Word) := by decide
  cases i with
  | ret => cases straight
  | jp nnn => cases straight
  | call nnn => cases straight
  | jpV0 nnn => cases straight
  | drw x y n =>
    cases executed
    obtain ⟨regs, screen⟩ := drawSprite_alike x y n alike.regs alike.screen reads
    refine ⟨_, rfl, ⟨regs, screen, ?_⟩, 2, List.mem_singleton.mpr rfl, rfl, rfl⟩
    exact congrArg (fun e => P.frameSync (P.interrupt e)) alike.env
  | restore x =>
    cases executed
    have loaded := restoreLoop_alike x alike.regs reads
    rw [restoreLoop_regs, restoreLoop_regs] at loaded
    simp only [Insn.exec, stepVM, step, advance, restoreLoop_regs]
    exact ⟨_, rfl, ⟨loaded, alike.screen, alike.env⟩, 2, List.mem_singleton.mpr rfl, rfl, rfl⟩
  | save x =>
    cases executed
    obtain ⟨m, only⟩ := saveLoop_only x s.vm
    obtain ⟨m', only'⟩ := saveLoop_only x t.vm
    simp only [Insn.exec, stepVM, step, advance, only, only']
    exact ⟨_, rfl, ⟨alike.regs, alike.screen, alike.env⟩, 2, List.mem_singleton.mpr rfl, rfl, rfl⟩
  | ldKey x =>
    have scanned := @scanKeys_alike E P x (P.awaitKeys s.env).1
      { s with env := (P.awaitKeys s.env).2 } { t with env := (P.awaitKeys t.env).2 }
      ⟨alike.regs, alike.screen, congrArg (fun e => (P.awaitKeys e).2) alike.env⟩
    have pc := @scanKeys_programCounter E P x (P.awaitKeys s.env).1
    simp only [Insn.exec] at executed
    split at executed
    · exact absurd executed (error_fails decoded Insn.noConfusion)
    · rename_i noQuit
      cases executed
      simp only [Insn.exec, alike.env] at scanned ⊢
      rw [if_neg noQuit]
      exact ⟨_, rfl, ⟨scanned.regs, scanned.screen, scanned.env⟩, 2, List.mem_singleton.mpr rfl,
        congrArg (· + 2) (pc _), congrArg (· + 2) (pc _)⟩
  | skip c =>
    have same : c.holds t.vm = c.holds s.vm := by
      cases c <;> simp only [SkipCond.holds, alike.regs]
    cases executed
    simp only [Insn.exec, skipIf, same]
    cases c.holds s.vm with
    | true =>
      exact ⟨_, rfl, ⟨alike.regs, alike.screen, alike.env⟩, 4, far, four _, four _⟩
    | false => exact ⟨_, rfl, ⟨alike.regs, alike.screen, alike.env⟩, 2, near, rfl, rfl⟩
  | skipKey x up =>
    obtain ⟨regs, screen, env⟩ := alike
    simp only [Insn.exec, regs, env] at executed ⊢
    split at executed
    · rename_i taken
      cases executed
      rw [if_pos taken]
      exact ⟨_, rfl, ⟨regs, screen, rfl⟩, 4, far, four _, four _⟩
    · rename_i notTaken
      cases executed
      rw [if_neg notTaken]
      exact ⟨_, rfl, ⟨regs, screen, rfl⟩, 2, near, rfl, rfl⟩
  -- The rest reads neither memory nor the stack: the records agree in all it looks at.
  | alu o x y =>
    obtain ⟨⟨regs, memory, stack, stackPointer, addr, pc, screen⟩, env⟩ := s
    obtain ⟨⟨regs', memory', stack', stackPointer', addr', pc', screen'⟩, env'⟩ := t
    obtain ⟨sameRegs, sameScreen, sameEnv⟩ := alike
    dsimp only at sameRegs sameScreen sameEnv
    subst sameRegs sameScreen sameEnv
    cases executed
    cases o <;> exact ⟨_, rfl, ⟨rfl, rfl, rfl⟩, 2, List.mem_singleton.mpr rfl, rfl, rfl⟩
  | _ =>
    obtain ⟨⟨regs, memory, stack, stackPointer, addr, pc, screen⟩, env⟩ := s
    obtain ⟨⟨regs', memory', stack', stackPointer', addr', pc', screen'⟩, env'⟩ := t
    obtain ⟨sameRegs, sameScreen, sameEnv⟩ := alike
    dsimp only at sameRegs sameScreen sameEnv
    subst sameRegs sameScreen sameEnv
    cases executed
    exact ⟨_, rfl, ⟨rfl, rfl, rfl⟩, 2, List.mem_singleton.mpr rfl, rfl, rfl⟩

theorem stored_alike (i : Insn) {vm vm' : VM} (regs : vm'.regs = vm.regs) :
    i.stored vm' = i.stored vm := by
  cases i <;> simp only [Insn.stored, regs]

theorem event_alike {i : Insn} {vm vm' : VM} (regs : vm'.regs = vm.regs)
    (reads : ∀ j < i.readLength, vm'.memAt j = vm.memAt j) : i.event vm' = i.event vm := by
  cases i with
  | drw x y n =>
    have sprite : (List.range n.toNat).map vm'.memAt = (List.range n.toNat).map vm.memAt :=
      List.map_congr_left fun j inside => reads j (List.mem_range.mp inside)
    simp only [Insn.event, sprite, regs]
  | bcd x => simp only [Insn.event, stored_alike _ regs]
  | save x => simp only [Insn.event, stored_alike _ regs]
  | _ => simp only [Insn.event, regs]

end

end ChipEight
