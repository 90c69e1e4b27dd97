import ChipEight.Aot.Stores

/-! Words the interpreter rejects, in a generated program.

The helpers answer an undefined selector of class 8 or F by storing 0xffff into the
program counter, but the block stores its own successor behind the call; an undefined
word of class E is lowered as `SKP`. The program goes on in each case.
-/

set_option autoImplicit false

namespace ChipEight.Aot

theorem decode_none {op : Word} (rejected : decode op = none) :
    (op == 0x00e0#16) = false ∧ (op == 0x00ee#16) = false ∧
      (opClass op = 8 ∧ decodeAlu (opLow4 op) = none ∨
        opClass op = 14 ∧ opLow8 op ≠ 0x9e ∧ opLow8 op ≠ 0xa1 ∨
        opClass op = 15 ∧ decodeF (opLow8 op) (opX op) = none) := by
  have small := opClass_lt op
  unfold decode at rejected
  split at rejected
  · cases rejected
  rename_i notCls
  split at rejected
  · cases rejected
  rename_i notRet
  refine ⟨Bool.eq_false_iff.mpr notCls, Bool.eq_false_iff.mpr notRet, ?_⟩
  split at rejected
  case h_9 cls => exact .inl ⟨cls, Option.map_eq_none_iff.mp rejected⟩
  case h_15 cls =>
    split at rejected
    · cases rejected
    · cases rejected
    · rename_i notSkp notSknp
      exact .inr (.inl ⟨cls, notSkp, notSknp⟩)
  case h_16 cls => exact .inr (.inr ⟨cls, rejected⟩)
  case h_17 =>
    exfalso
    clear rejected notCls notRet
    generalize opClass op = cls at *
    interval_cases cls <;> contradiction
  all_goals cases rejected

theorem aluCase_undefined {n : Nat} (undefined' : decodeAlu n = none) (x y : Reg) (vm : VM) :
    aluCase x y n vm = vm.setPc 0xffff#16 := by
  unfold decodeAlu at undefined'
  split at undefined' <;> try cases undefined'
  unfold aluCase
  dsimp only
  split <;> first | rfl | contradiction

section
variable {E : Type} (H : Host E)

theorem f_undefined {k : Nat} {x : Reg} (undefined' : decodeF k x = none) (m : Machine E) :
    chip8AotF H x k m = m.mapVM (VM.setPc · 0xffff#16) := by
  unfold decodeF at undefined'
  split at undefined' <;> try cases undefined'
  unfold chip8AotF
  split <;> first | rfl | contradiction

/-- The address control goes on to behind a rejected word. -/
def rejectedNext (op pc : Word) (m : Machine E) : Word :=
  if opClass op = 14 ∧
    (H.keys (H.pollKeysIfDue m.env)).1 &&& H.shiftOne (m.vm.regs (opX op)) ≠ 0#32
  then pc + 4 else pc + 2

theorem key_machine (x : Reg) (m : Machine E) :
    (chip8AotKey H x false m).vm = m.vm.setPc
      (if (H.keys (H.pollKeysIfDue m.env)).1 &&& H.shiftOne (m.vm.regs x) ≠ 0#32
        then m.vm.programCounter + 4 else m.vm.programCounter + 2) := by
  unfold chip8AotKey
  dsimp only
  rw [Bool.xor_false]
  by_cases down : (H.keys (H.pollKeysIfDue m.env)).1 &&& H.shiftOne (m.vm.regs x) = 0#32
  · rw [down, if_neg (by simp), if_neg (by simp)]
    rfl
  · rw [if_pos (bne_iff_ne.mpr down), if_pos down]
    simp only [Machine.mapVM, VM.setPc, BitVec.add_assoc]
    rfl

theorem lowered_rejected {op : Word} (rejected : decode op = none) (f : Frame E) :
    ∃ m, Lowers H (lowered f.machine.vm.programCounter op) f m ∧
      m.vm = f.machine.vm.setPc (rejectedNext H op f.machine.vm.programCounter f.machine) := by
  obtain ⟨notCls, notRet, kind⟩ := decode_none rejected
  unfold lowered rejectedNext
  dsimp only
  rw [notCls, notRet]
  simp only [Bool.false_eq_true, if_false]
  obtain ⟨cls, undefined'⟩ | ⟨cls, notSkp, notSknp⟩ | ⟨cls, undefined'⟩ := kind
  · rw [cls]
    refine ⟨_, lowers_callNext _ (.alu (opX op) (opY op) (immediate4 op)) f, ?_⟩
    rw [← immediate4_toNat] at undefined'
    show (aluCase (opX op) (opY op) (immediate4 op).toNat f.machine.vm).setPc _ = _
    rw [aluCase_undefined undefined']
    rfl
  · rw [cls]
    have up : (immediate8 op == 0xa1#8) = false := by
      apply beq_eq_false_iff_ne.mpr
      intro same
      apply notSknp
      rw [← immediate8_toNat, same]
      rfl
    rw [up]
    refine ⟨_, lowers_call (.key (opX op) false) f, ?_⟩
    refine (key_machine H (opX op) f.machine).trans ?_
    simp only [true_and]
  · rw [cls]
    refine ⟨_, lowers_callNext _ (.f (opX op) (immediate8 op)) f, ?_⟩
    rw [← immediate8_toNat] at undefined'
    show (chip8AotF H (opX op) (immediate8 op).toNat f.machine).vm.setPc _ = _
    rw [f_undefined H undefined']
    rfl

end

/-! ## Leaving the program -/

theorem find_exit (addresses : List Word) (word : Word → Word) :
    ((addresses.flatMap fun a => block a (word a)) ++ [(⟨.exit, [], .ret⟩ : BasicBlock)]).find?
      (fun b => b.label == .exit) = some ⟨.exit, [], .ret⟩ := by
  induction addresses with
  | nil => rfl
  | cons a as ih => simpa [block] using ih

section
variable {E : Type} (H : Host E) {rom : List Byte}

theorem step_leaves {f : Frame E}
    (outside : f.machine.vm.programCounter ∉ romAddresses rom.length) :
    (chip8AotRun rom).step H ⟨.dispatch, f⟩ =
      some ⟨.exit, f.set .pc (.i16 f.machine.vm.programCounter)⟩ := by
  rw [step_switch, if_neg outside]

theorem step_exit (f : Frame E) : (chip8AotRun rom).step H ⟨.exit, f⟩ = none := by
  have found : (chip8AotRun rom).find? (fun b => b.label == .exit) = some ⟨.exit, [], .ret⟩ :=
    find_exit (romAddresses rom.length) (romWord rom)
  simp only [Program.step, found, Option.bind_eq_bind, Option.bind_some, runBody,
    Terminator.next, Option.bind_none]

/-- No block of a word is entered from `c` on. -/
def NoFurther (rom : List Byte) (c : Config E) : Prop :=
  ∀ k c', Run.after ((chip8AotRun rom).step H) k c = some c' →
    ∀ pc, c'.label ≠ .pc pc ∧ c'.label ≠ .op pc

theorem noFurther_iff (f : Frame E) :
    NoFurther H rom ⟨.dispatch, f⟩ ↔
      f.machine.vm.programCounter ∉ romAddresses rom.length := by
  constructor
  · intro stops known
    exact (stops 1 _ (@step_dispatch _ H rom f known) f.machine.vm.programCounter).1 rfl
  · intro outside k c' reached pc
    cases k with
    | zero =>
      cases reached
      exact ⟨Label.noConfusion, Label.noConfusion⟩
    | succ k =>
      rw [Run.after_head, step_leaves H outside, Option.bind_some] at reached
      cases k with
      | zero =>
        cases reached
        exact ⟨Label.noConfusion, Label.noConfusion⟩
      | succ k =>
        rw [Run.after_head, step_exit H] at reached
        cases reached

/-- The machine but for its program counter. -/
structure Kept (vm vm' : VM) : Prop where
  regs : vm'.regs = vm.regs
  addr : vm'.addr = vm.addr
  memory : vm'.memory = vm.memory
  stack : vm'.stack = vm.stack
  stackPointer : vm'.stackPointer = vm.stackPointer
  screen : vm'.screen = vm.screen

/-- Behind a rejected word the program enters no further block exactly if the address it
goes on to is none of the ROM's. -/
theorem rejected_stops_iff (even : rom.length % 2 = 0) (fits : rom.length ≤ 3584) {env : E}
    {n : Nat} {f : Frame E}
    (run : Run.after ((chip8AotRun rom).step H) n (.start (.boot rom env)) = some ⟨.dispatch, f⟩)
    (known : f.machine.vm.programCounter ∈ romAddresses rom.length)
    (noStore : ∀ k < n, ∀ u,
      Run.after ((chip8AotRun rom).step H) k (.start (.boot rom env)) = some u →
        ∀ pc i, u.label = .op pc → decode (romWord rom pc) = some i →
          ∀ a ∈ i.written u.frame.machine.vm.addr, ¬ InRom rom a.toNat)
    (noQuit : (chip8AotRetire H f.machine).1 = false)
    (rejected : decode (opcodeAt f.machine.vm.memory f.machine.vm.programCounter) = none) :
    ∃ g, Run.after ((chip8AotRun rom).step H) (n + 3) (.start (.boot rom env)) =
        some ⟨.dispatch, g⟩ ∧
      (NoFurther H rom ⟨.dispatch, g⟩ ∧ Kept f.machine.vm g.machine.vm ↔
        rejectedNext H (opcodeAt f.machine.vm.memory f.machine.vm.programCounter)
            f.machine.vm.programCounter (chip8AotRetire H f.machine).2 ∉
          romAddresses rom.length) := by
  obtain ⟨even', inside⟩ := romAddresses_mem fits even known
  have intact : Intact rom f.machine.vm.memory := by
    intro a code
    apply unchanged_byte H run
    intro k small u reached changes
    obtain ⟨pc, i, here, decoded, stores⟩ := changes.stores
    exact noStore k small u reached pc i here decoded a stores code
  -- Nothing was stored into the ROM, so the word fetched is the one the code was made for.
  have word := word_of_intact intact fits even even' inside
  obtain ⟨m, lowers, machine⟩ := lowered_rejected H rejected
    (((f.set .pc (.i16 f.machine.vm.programCounter)).setMachine (chip8AotRetire H f.machine).2).set
      (.stop f.machine.vm.programCounter) (.i1 false))
  rw [word] at lowers
  obtain ⟨g, last, same⟩ := step_lowered known lowers
  have selected := @step_dispatch _ H rom f known
  have retires : chip8AotRetire H (f.set .pc (.i16 f.machine.vm.programCounter)).machine =
      (false, (chip8AotRetire H f.machine).2) := Prod.ext noQuit rfl
  have passed := @step_safepoint _ H rom _ _ _ known retires
  have further : Run.after ((chip8AotRun rom).step H) 3 ⟨.dispatch, f⟩ = some ⟨.dispatch, g⟩ := by
    rw [Run.after_head, selected, Option.bind_some, Run.after_head, passed, Option.bind_some]
    exact last
  have vm : g.machine.vm = f.machine.vm.setPc (rejectedNext H (opcodeAt f.machine.vm.memory
      f.machine.vm.programCounter) f.machine.vm.programCounter (chip8AotRetire H f.machine).2) := by
    rw [same, machine]
    rfl
  refine ⟨g, Run.after_trans run further, ?_⟩
  rw [noFurther_iff, vm]
  constructor
  · exact fun both => both.1
  · exact fun outside => ⟨outside, ⟨rfl, rfl, rfl, rfl, rfl, rfl⟩⟩

end

/-- One word of class 8 with an undefined selector. -/
def rejectedLast : List Byte := [0x80, 0x08]

/-- The same word with `LD V0, 1` behind it. -/
def rejectedFirst : List Byte := [0x80, 0x08, 0x60, 0x01]

/-- At the ROM's end the rejected word stops the program. -/
theorem rejected_stops_iff_last :
    ∃ g, Run.after ((chip8AotRun rejectedLast).step (tapeHost quietTape fun _ => 0#32)) 4
        (.start (.boot rejectedLast .start)) = some ⟨.dispatch, g⟩ ∧
      (NoFurther (tapeHost quietTape fun _ => 0#32) rejectedLast ⟨.dispatch, g⟩ ∧
          Kept (VM.boot rejectedLast) g.machine.vm ↔
        (0x202#16 : Word) ∉ romAddresses 2) := by
  have start : Run.after ((chip8AotRun rejectedLast).step (tapeHost quietTape fun _ => 0#32)) 1
      (.start (.boot rejectedLast .start)) = some ⟨.dispatch, _⟩ := rfl
  refine rejected_stops_iff (tapeHost quietTape fun _ => 0#32) (by decide) (by decide) start
    (by decide) ?_ rfl (by decide)
  intro k first u reached pc i here
  obtain rfl : k = 0 := Nat.lt_one_iff.mp first
  cases reached
  cases here

/-- Behind the rejected word the block for 0x202 runs and sets V0; the interpreter has
stopped. -/
theorem rejected_goes_on :
    decode (opcodeAt (loadRom rejectedFirst) 0x200#16) = none ∧
    mainStep (tapePlatform quietTape fun _ => 0#32) (interpreterStart rejectedFirst) = none ∧
    ∃ c c', Run.after ((chip8AotRun rejectedFirst).step (tapeHost quietTape fun _ => 0#32)) 6
        (.start (.boot rejectedFirst .start)) = some c ∧
      c.label = .op 0x202#16 ∧
      (chip8AotRun rejectedFirst).step (tapeHost quietTape fun _ => 0#32) c = some c' ∧
      c.frame.machine.vm.regs 0#4 = 0#8 ∧ c'.frame.machine.vm.regs 0#4 = 1#8 :=
  ⟨by decide, rfl, _, _, rfl, rfl, rfl, rfl, rfl⟩

end ChipEight.Aot
