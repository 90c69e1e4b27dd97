import ChipEight.Aot.Refinement
import Mathlib.Tactic.IntervalCases

/-! What a generated program does to the memory its blocks were compiled from.

Only `Fx33` and `Fx55` store into memory. Nothing compares the bytes of a word with the
word its block was compiled from, so a store into the code goes unnoticed.
-/

set_option autoImplicit false

namespace ChipEight.Aot

/-! ## Calls that leave memory alone -/

def Instr.quiet : Instr → Bool
  | .call (.f _ k) => k != 51#8 && k != 85#8
  | _ => true

section
variable {E : Type} (H : Host E)

theorem retire_vm (m : Machine E) : (chip8AotRetire H m).2.vm = m.vm := rfl

theorem scanDown_memory (x : Reg) (is : List Nat) (m : Machine E) :
    (scanDown H x is m).vm.memory = m.vm.memory := by
  induction is generalizing m with
  | nil => rfl
  | cons i is ih =>
    unfold scanDown
    dsimp only
    split
    · rfl
    · exact ih _

theorem loadCase_memory (x : Reg) (vm : VM) : (loadCase x vm).memory = vm.memory :=
  restoreLoop_memory x vm

theorem aluCase_memory (x y : Reg) (n : Nat) (vm : VM) :
    (aluCase x y n vm).memory = vm.memory := by
  unfold aluCase
  dsimp only
  split <;> rfl

theorem f_memory (x : Reg) {k : Nat} (quiet : k ≠ 51 ∧ k ≠ 85) (m : Machine E) :
    (chip8AotF H x k m).vm.memory = m.vm.memory := by
  unfold chip8AotF
  split
  case h_2 => exact scanDown_memory H x _ _
  case h_7 => exact absurd rfl quiet.1
  case h_8 => exact absurd rfl quiet.2
  case h_9 => exact loadCase_memory x m.vm
  all_goals rfl

theorem key_memory (x : Reg) (up : Bool) (m : Machine E) :
    (chip8AotKey H x up m).vm.memory = m.vm.memory := by
  unfold chip8AotKey
  dsimp only
  split <;> rfl

theorem callee_memory {c : Callee} (quiet : (Instr.call c).quiet = true) (m : Machine E) :
    (c.run H m).vm.memory = m.vm.memory := by
  cases c with
  | «return» =>
    simp only [Callee.run, chip8AotReturn]
    split <;> rfl
  | call dst ret =>
    simp only [Callee.run, chip8AotCall]
    split <;> rfl
  | alu x y n => exact aluCase_memory x y n.toNat m.vm
  | key x up => exact key_memory H x up m
  | f x k =>
    simp only [Instr.quiet, Bool.and_eq_true, bne_iff_ne] at quiet
    apply f_memory
    constructor
    · intro same
      exact quiet.1 (BitVec.eq_of_toNat_eq same)
    · intro same
      exact quiet.2 (BitVec.eq_of_toNat_eq same)
  | _ => rfl

theorem instr_memory {i : Instr} (quiet : i.quiet = true) {f g : Frame E}
    (ran : i.run H f = some g) : g.machine.vm.memory = f.machine.vm.memory := by
  -- Only a call can store; the stores of the generated code go to registers.
  cases i with
  | retire dst =>
    cases ran
    exact congrArg VM.memory (retire_vm H f.machine)
  | call c =>
    cases ran
    exact callee_memory H quiet f.machine
  | getelementptr dst reg =>
    cases ran
    rfl
  | load dst ptr =>
    simp only [Instr.run] at ran
    split at ran <;> cases ran
    rfl
  | loadPc dst =>
    cases ran
    rfl
  | icmp dst eq a b =>
    simp only [Instr.run, Option.bind_eq_bind, Option.bind_eq_some_iff] at ran
    obtain ⟨_, -, _, -, _, -, same⟩ := ran
    cases same
    rfl
  | select dst cond yes no =>
    simp only [Instr.run] at ran
    split at ran <;> cases ran
    rfl
  | add dst a b =>
    simp only [Instr.run, Option.bind_eq_bind, Option.bind_eq_some_iff] at ran
    obtain ⟨_, -, _, -, _, -, same⟩ := ran
    cases same
    rfl
  | zext dst src =>
    simp only [Instr.run] at ran
    split at ran <;> cases ran
    rfl
  | store v ptr =>
    simp only [Instr.run] at ran
    split at ran <;> cases ran
    rfl
  | storePc v =>
    simp only [Instr.run] at ran
    split at ran <;> cases ran
    rfl
  | storeAddr v =>
    simp only [Instr.run] at ran
    split at ran <;> cases ran
    rfl

theorem runBody_memory {is : List Instr} (quiet : ∀ i ∈ is, i.quiet = true) {f g : Frame E}
    (ran : runBody H is f = some g) : g.machine.vm.memory = f.machine.vm.memory := by
  induction is generalizing f with
  | nil =>
    cases ran
    rfl
  | cons i is ih =>
    obtain ⟨f', first, rest⟩ := Option.bind_eq_some_iff.mp ran
    rw [ih (fun j mem => quiet j (List.mem_cons_of_mem i mem)) rest]
    exact instr_memory H (quiet i List.mem_cons_self) first

end

/-! ## Lowered code that leaves memory alone -/

/-- Nothing printed so far stores into memory. -/
def Printed.Quiet (t : Printed) : Prop := ∀ i ∈ t.body, i.quiet = true

namespace Printed

theorem quiet_start : Quiet start := fun _ mem => absurd mem List.not_mem_nil

theorem Quiet.print {t : Printed} (quiet : t.Quiet) {i : Instr} (here : i.quiet = true) :
    (t.print i).Quiet := by
  intro j mem
  obtain old | new := List.mem_append.mp mem
  · exact quiet j old
  · rw [List.mem_singleton.mp new]
    exact here

theorem Quiet.regptr {t : Printed} (quiet : t.Quiet) (pc : Word) (r : Reg) :
    (t.regptr pc r).Quiet := by
  unfold Printed.regptr
  split
  · exact quiet
  · exact quiet.print rfl

theorem Quiet.loadreg {t : Printed} (quiet : t.Quiet) (pc : Word) (r : Reg) :
    (t.loadreg pc r).Quiet := by
  unfold Printed.loadreg
  dsimp only
  split
  · exact quiet.regptr pc r
  · exact (quiet.regptr pc r).print rfl

theorem Quiet.next {t : Printed} (quiet : t.Quiet) (pc : Word) :
    ∀ i ∈ (t.next pc).1, i.quiet = true :=
  quiet.print rfl

theorem Quiet.skipTail {t : Printed} (quiet : t.Quiet) (pc : Word) (eq : Bool) (a b : Operand) :
    ∀ i ∈ (t.skipTail pc eq a b).1, i.quiet = true :=
  ((quiet.print rfl).print rfl).print rfl

end Printed

open Printed in
theorem lowered_quiet (pc : Word) {op : Word} (other : opClass op ≠ 15) :
    ∀ i ∈ (lowered pc op).1, i.quiet = true := by
  unfold lowered
  dsimp only
  split
  · exact (quiet_start.print rfl).next pc
  split
  · exact quiet_start.print rfl
  split
  · exact quiet_start.print rfl
  · exact quiet_start.print rfl
  · exact quiet_start.print rfl
  · exact (quiet_start.loadreg pc _).skipTail pc _ _ _
  · exact (quiet_start.loadreg pc _).skipTail pc _ _ _
  · exact ((quiet_start.loadreg pc _).loadreg pc _).skipTail pc _ _ _
  · exact ((quiet_start.loadreg pc _).loadreg pc _).skipTail pc _ _ _
  · exact ((quiet_start.regptr pc _).print rfl).next pc
  · exact ((((quiet_start.loadreg pc _).print rfl).regptr pc _).print rfl).next pc
  · exact (quiet_start.print rfl).next pc
  · exact (quiet_start.print rfl).next pc
  · exact (((quiet_start.loadreg pc _).print rfl).print rfl).print rfl
  · exact (quiet_start.print rfl).next pc
  · exact (quiet_start.print rfl).next pc
  · exact quiet_start.print rfl
  · rename_i cls
    exact absurd cls other
  · exact quiet_start.print rfl

theorem decode_classF {op : Word} (cls : opClass op = 15) :
    decode op = decodeF (opLow8 op) (opX op) := by
  obtain ⟨notCls, notRet⟩ := not_miscellaneous cls
  unfold decode
  rw [notCls, notRet, cls]
  rfl

theorem lowered_classF (pc : Word) {op : Word} (cls : opClass op = 15) :
    lowered pc op = (Printed.start.print (.call (.f (opX op) (immediate8 op)))).next pc := by
  obtain ⟨notCls, notRet⟩ := not_miscellaneous cls
  unfold lowered
  rw [notCls, notRet, cls]
  rfl

section
variable {E : Type} (H : Host E)

theorem lowered_memory {pc op : Word} {f g : Frame E}
    (ran : runBody H (lowered pc op).1 f = some g) {a : Addr}
    (away : ∀ i, decode op = some i → a ∉ i.written f.machine.vm.addr) :
    g.machine.vm.memory a = f.machine.vm.memory a := by
  by_cases cls : opClass op = 15
  · rw [lowered_classF pc cls] at ran
    rw [decode_classF cls, ← immediate8_toNat] at away
    cases ran
    show (chip8AotF H (opX op) (immediate8 op).toNat f.machine).vm.memory a = _
    by_cases digits : (immediate8 op).toNat = 51
    · rw [digits] at away ⊢
      show (bcdCase (opX op) f.machine.vm).memory a = _
      rw [bcdCase_eq]
      exact bcdStores_memory (opX op) f.machine.vm (away _ rfl)
    · by_cases saves : (immediate8 op).toNat = 85
      · rw [saves] at away ⊢
        exact saveLoop_memory (opX op) f.machine.vm (away _ rfl)
      · rw [f_memory H (opX op) ⟨digits, saves⟩]
  · rw [runBody_memory H (lowered_quiet pc cls) ran]

variable {rom : List Byte}

theorem mem_program {b : BasicBlock} (mem : b ∈ chip8AotRun rom) :
    ((∀ i ∈ b.body, i.quiet = true) ∧ ∀ pc, b.label ≠ .op pc) ∨
      ∃ pc ∈ romAddresses rom.length, b.label = .op pc ∧
        b.body = (lowered pc (romWord rom pc)).1 := by
  unfold chip8AotRun at mem
  obtain mem | mem := List.mem_append.mp mem
  · obtain mem | mem := List.mem_append.mp mem
    · left
      simp only [List.mem_cons, List.not_mem_nil, or_false] at mem
      obtain rfl | rfl := mem
      · exact ⟨fun _ mem => absurd mem List.not_mem_nil, fun _ => Label.noConfusion⟩
      · exact ⟨by simp [Instr.quiet], fun _ => Label.noConfusion⟩
    · obtain ⟨pc, known, mem⟩ := List.mem_flatMap.mp mem
      simp only [block, List.mem_cons, List.not_mem_nil, or_false] at mem
      obtain rfl | rfl := mem
      · left
        exact ⟨by simp [Instr.quiet], fun _ => Label.noConfusion⟩
      · exact .inr ⟨pc, known, rfl, rfl⟩
  · left
    rw [List.mem_singleton.mp mem]
    exact ⟨fun _ mem => absurd mem List.not_mem_nil, fun _ => Label.noConfusion⟩

theorem step_memory {c c' : Config E} (stepped : (chip8AotRun rom).step H c = some c') {a : Addr}
    (away : ∀ pc i, c.label = .op pc → decode (romWord rom pc) = some i →
      a ∉ i.written c.frame.machine.vm.addr) :
    c'.frame.machine.vm.memory a = c.frame.machine.vm.memory a := by
  simp only [Program.step, Option.bind_eq_bind, Option.bind_eq_some_iff] at stepped
  obtain ⟨b, found, f, ran, l, -, same⟩ := stepped
  cases same
  have label := List.find?_some found
  obtain ⟨quiet, -⟩ | ⟨pc, -, here, body⟩ := mem_program (List.mem_of_find?_eq_some found)
  · rw [runBody_memory H quiet ran]
  · rw [here] at label
    rw [body] at ran
    exact lowered_memory H ran (fun i => away pc i (beq_iff_eq.mp label).symm)

end

/-! ## Stale code -/

theorem romAddresses_mem {rom : List Byte} (fits : rom.length ≤ 3584) (whole : rom.length % 2 = 0)
    {pc : Word} (known : pc ∈ romAddresses rom.length) :
    pc.toNat % 2 = 0 ∧ InRom rom pc.toNat := by
  obtain ⟨k, small, rfl⟩ := List.mem_map.mp known
  have base : entrypoint.toNat = 512 := rfl
  have small := List.mem_range.mp small
  unfold InRom
  rw [BitVec.toNat_add, BitVec.toNat_ofNat, base]
  omega

section
variable {E : Type} (H : Host E)

theorem body_known {rom : List Byte} {c c' : Config E} {pc : Word} (here : c.label = .op pc)
    (stepped : (chip8AotRun rom).step H c = some c') : pc ∈ romAddresses rom.length := by
  simp only [Program.step, Option.bind_eq_bind, Option.bind_eq_some_iff] at stepped
  obtain ⟨b, found, -⟩ := stepped
  have label := List.find?_some found
  rw [beq_iff_eq, here] at label
  obtain ⟨-, other⟩ | ⟨q, known, same, -⟩ := mem_program (List.mem_of_find?_eq_some found)
  · exact absurd label (other pc)
  · rw [label] at same
    cases same
    exact known

/-- The body `c` is about to run changes byte `a` with a store. -/
structure Changes (rom : List Byte) (c : Config E) (a : Addr) : Prop where
  stores : ∃ pc i, c.label = .op pc ∧ decode (romWord rom pc) = some i ∧
    a ∈ i.written c.frame.machine.vm.addr
  differs : ∀ c', (chip8AotRun rom).step H c = some c' →
    c'.frame.machine.vm.memory a ≠ c.frame.machine.vm.memory a

/-- The two bytes of the word at `pc`. -/
def CodeByte (pc : Word) (a : Addr) : Prop := a = mask pc ∨ a = mask (pc + 1)

theorem unchanged_byte {rom : List Byte} {env : E} {a : Addr} {n : Nat} {c : Config E}
    (run : Run.after ((chip8AotRun rom).step H) n (.start (.boot rom env)) = some c)
    (kept : ∀ k < n, ∀ u,
      Run.after ((chip8AotRun rom).step H) k (.start (.boot rom env)) = some u →
        ¬ Changes H rom u a) :
    c.frame.machine.vm.memory a = loadRom rom a := by
  induction n generalizing c with
  | zero =>
    cases run
    rfl
  | succ n ih =>
    obtain ⟨u, earlier, last⟩ := Run.after_succ.mp run
    have before := ih earlier fun k small => kept k (Nat.lt_succ_of_lt small)
    rw [← before]
    by_contra differs
    apply kept n (Nat.lt_succ_self n) u earlier
    constructor
    · by_contra elsewhere
      apply differs
      apply step_memory H last
      intro pc i here decoded inside
      exact elsewhere ⟨pc, i, here, decoded, inside⟩
    · intro c' stepped
      rw [last] at stepped
      cases stepped
      exact differs

/-- A block whose word no executed store has changed runs with that word in memory. -/
theorem block_fresh {rom : List Byte} (even : rom.length % 2 = 0) (fits : rom.length ≤ 3584)
    {env : E} {n : Nat} {c c' : Config E} {pc : Word}
    (run : Run.after ((chip8AotRun rom).step H) n (.start (.boot rom env)) = some c)
    (here : c.label = .op pc) (executes : (chip8AotRun rom).step H c = some c')
    (kept : ∀ k < n, ∀ u,
      Run.after ((chip8AotRun rom).step H) k (.start (.boot rom env)) = some u →
        ∀ a, CodeByte pc a → ¬ Changes H rom u a) :
    opcodeAt c.frame.machine.vm.memory pc = romWord rom pc := by
  obtain ⟨even', inside⟩ := romAddresses_mem fits even (body_known H here executes)
  have byte (a : Addr) (code : CodeByte pc a) : c.frame.machine.vm.memory a = loadRom rom a :=
    unchanged_byte H run fun k small u reached => kept k small u reached a code
  have intact : Intact rom (loadRom rom) := fun _ _ => rfl
  rw [← word_of_intact intact fits even even' inside]
  unfold opcodeAt
  rw [byte _ (.inl rfl), byte _ (.inr rfl)]

end

/-- `LD I, 0x204; LD B, V0; LD V1, 5; JP 0x206`: the store clears the third word. -/
def clearsCode : List Byte := [0xa2, 0x04, 0xf0, 0x33, 0x61, 0x05, 0x12, 0x06]

/-- A store elsewhere, and the block after it. -/
theorem block_fresh_storesDigits :
    ∃ c, Run.after ((chip8AotRun storesDigits).step (tapeHost quietTape fun _ => 0#32)) 12
        (.start (.boot storesDigits .start)) = some c ∧
      opcodeAt c.frame.machine.vm.memory 0x206#16 = romWord storesDigits 0x206#16 := by
  have run : Run.after ((chip8AotRun storesDigits).step (tapeHost quietTape fun _ => 0#32)) 12
      (.start (.boot storesDigits .start)) = some _ := rfl
  refine ⟨_, run, block_fresh (tapeHost quietTape fun _ => 0#32) (by decide) (by decide) run rfl
    rfl ?_⟩
  intro k small u reached a code changes
  obtain ⟨pc, i, here, decoded, inside⟩ := changes.stores
  interval_cases k <;> cases reached <;> cases here <;> cases decoded
  all_goals
    revert inside
    obtain rfl | rfl := code <;> decide

/-- The block for 0x204 runs, and sets V1, after the store has cleared its word. -/
theorem block_stale :
    ∃ c c', Run.after ((chip8AotRun clearsCode).step (tapeHost quietTape fun _ => 0#32)) 9
        (.start (.boot clearsCode .start)) = some c ∧
      c.label = .op 0x204#16 ∧
      (chip8AotRun clearsCode).step (tapeHost quietTape fun _ => 0#32) c = some c' ∧
      c'.frame.machine.vm.regs 1#4 = 5#8 ∧
      opcodeAt c.frame.machine.vm.memory 0x204#16 ≠ romWord clearsCode 0x204#16 := by
  exact ⟨_, _, rfl, rfl, rfl, rfl, by decide⟩

end ChipEight.Aot
