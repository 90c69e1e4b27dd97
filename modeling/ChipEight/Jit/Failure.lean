import ChipEight.Jit.Bounds

/-! What happens when `codegen` returns `NULL`.

The dispatcher leaves its loop at once, before any instruction of the trace has
run. The interpreter runs on from the same state, and what it does depends on the
registers. The two stops are compared here.
-/

set_option autoImplicit false

namespace ChipEight

section
variable {E : Type} {P : Platform E}

theorem exec_ok_of_successor {i : Insn} {k : Nat} {pc : Word} (op : Word)
    (follows : i.successor k pc ≠ none) (s : State E) : (i.exec P op s).1 = 0#32 := by
  cases i with
  | ret | call nnn | jpV0 nnn | skipKey x up | ldKey x | bcd x | save x =>
    exact absurd rfl follows
  | skip c =>
    simp only [Insn.exec, Interpreter.skipIf]
    split <;> rfl
  | _ => rfl

theorem exec_error {op : Word} {i : Insn} {s : State E} (fails : (i.exec P op s).1 ≠ 0#32) :
    (i.exec P op s).2.vm.memory = s.vm.memory ∧
      (i.exec P op s).2.vm.programCounter = s.vm.programCounter := by
  by_cases follows : i.successor 0 0#16 = none
  · cases i with
    | ret =>
      simp only [Insn.exec, Interpreter.retern] at fails ⊢
      split at fails
      · exact absurd rfl fails
      · rename_i empty
        rw [if_neg empty]
        exact ⟨rfl, rfl⟩
    | call nnn =>
      simp only [Insn.exec] at fails ⊢
      split at fails
      · exact absurd rfl fails
      · rename_i full
        rw [if_neg full]
        exact ⟨rfl, rfl⟩
    | ldKey x =>
      simp only [Insn.exec] at fails ⊢
      split at fails
      · rename_i quit
        rw [if_pos quit]
        exact ⟨scanKeys_memory _ _ _ _, scanKeys_programCounter _ _ _ _⟩
      · exact absurd rfl fails
    | skipKey x up =>
      simp only [Insn.exec] at fails
      split at fails <;> exact absurd rfl fails
    | jpV0 nnn | bcd x | save x => exact absurd rfl fails
    | _ => cases follows
  · exact absurd (exec_ok_of_successor op follows s) fails

end

namespace Jit

section
variable (rng : Nat → BitVec 32) (undefinedShift : Byte → BitVec 32)

/-- The interpreter starts in `s`, executes `n` instructions along `path`, and the next
one is rejected, which leaves `last`. -/
def StopsAt (path : Nat → Option Word) (s : State Bench) (n : Nat) (last : State Bench) : Prop :=
  ∃ t code, benchRun rng undefinedShift n s = some t ∧
    (∀ k u, k ≤ n → benchRun rng undefinedShift k s = some u →
      path k = some u.vm.programCounter) ∧
    Interpreter.basicBlock (benchPlatform rng undefinedShift) (benchEnter t) = (code, last) ∧
    code ≠ 0#32

/-- Registers, memory and PC agree. -/
def SameMachine (vm vm' : VM) : Prop :=
  vm.regs = vm'.regs ∧ vm.memory = vm'.memory ∧ vm.programCounter = vm'.programCounter

variable {rng undefinedShift}

theorem StopsAt.retired {path : Nat → Option Word} {s last : State Bench} {n : Nat}
    (stops : StopsAt rng undefinedShift path s n last) :
    last.env.retired = s.env.retired + n + 1 := by
  obtain ⟨t, code, run, -, rejected, -⟩ := stops
  have keeps := basicBlock_keeps rng undefinedShift (benchEnter t)
  rw [rejected] at keeps
  rw [keeps.retired, benchEnter_retired, benchRun_retired rng undefinedShift run]

theorem StopsAt.rejected {path : Nat → Option Word} {s last : State Bench} {n : Nat}
    (stops : StopsAt rng undefinedShift path s n last) {i : Insn}
    (decoded : decode (opcodeAt last.vm.memory last.vm.programCounter) = some i) :
    i.successor 0 last.vm.programCounter = none := by
  obtain ⟨t, code, -, -, rejected, failed⟩ := stops
  rw [basicBlock_eq] at rejected
  cases here : decode (opcodeAt (benchEnter t).vm.memory (benchEnter t).vm.programCounter) with
  | none =>
    rw [here] at rejected
    cases rejected
    rw [here] at decoded
    cases decoded
  | some j =>
    rw [here] at rejected
    dsimp only at rejected
    have fails : (j.exec (benchPlatform rng undefinedShift)
        (opcodeAt (benchEnter t).vm.memory (benchEnter t).vm.programCounter)
        (benchEnter t)).1 ≠ 0#32 := by
      rw [rejected]
      exact failed
    obtain ⟨memory, pc⟩ := exec_error fails
    rw [rejected] at memory pc
    rw [memory, pc, here] at decoded
    cases decoded
    by_contra follows
    exact fails (exec_ok_of_successor _ follows _)

end

theorem bail_successor {b : Build} {memory : Memory} {pc : Word}
    (fails : (codegen b memory pc).outcome = .bail) {i : Insn}
    (decoded : decode (opcodeAt memory pc) = some i) : i.successor 0 pc ≠ none := by
  rw [codegen, codegenLoop, if_neg List.not_mem_nil, emitInsn_eq, decoded] at fails
  have leads := @emitOf_successor b (b.idleWait memory) [pc] pc (opcodeAt memory (pc + 2)) 0 i
  dsimp only at fails
  cases emission : emitOf b (b.idleWait memory) [pc] pc (opcodeAt memory (pc + 2)) 0 i with
  | bail => rw [emission] at leads; exact absurd leads id
  | stop body => rw [emission] at fails; cases fails
  | next pc' body =>
    rw [emission] at leads
    rw [show i.successor 0 pc = some pc' from leads]
    simp

theorem bail_step {E : Type} {P : Host E} {b : Build} {d : Dispatcher E} (compiling : Compiles d)
    (fails : (codegen b d.machine.vm.memory d.machine.vm.programCounter).outcome = .bail) :
    ∃ d', Dispatcher.step P b d = some d' ∧ d'.position = .stopped .codegenFailed ∧
      d'.machine.vm = d.machine.vm ∧ d'.machine.env = d.machine.env := by
  obtain ⟨top, miss⟩ := compiling
  refine ⟨d.compile b, ?_, ?_⟩
  · simp only [Dispatcher.step, top, miss]
  · rcases compile_cases b d with ⟨rest, blocks, made, -⟩ | ⟨-, same⟩
    · rw [fails] at made
      cases made
    · rw [same]
      exact ⟨rfl, rfl, rfl⟩

/-- An interpreter that ends in the state the failed compilation ended in was stopped
by the very word the compilation was entered at. -/
theorem decode_none_of_stop {rng : Nat → BitVec 32} {undefinedShift : Byte → BitVec 32}
    {b : Build} {vm : VM} (fails : (codegen b vm.memory vm.programCounter).outcome = .bail)
    {path : Nat → Option Word} {s last : State Bench} {n : Nat}
    (stops : StopsAt rng undefinedShift path s n last) (same : SameMachine last.vm vm) :
    decode (opcodeAt vm.memory vm.programCounter) = none := by
  obtain ⟨-, memory, pc⟩ := same
  cases decoded : decode (opcodeAt vm.memory vm.programCounter) with
  | none => rfl
  | some i =>
    have ended := @stops.rejected _ _ _ _ _ _ i (by rw [memory, pc, decoded])
    rw [pc] at ended
    exact absurd ended (bail_successor fails decoded)

/-- After a failed compilation the retired count is never the interpreter's, which has
counted the rejected instruction. The rest of the state is exactly when the word at
the PC itself is undecodable, so that nothing was compiled ahead of execution. -/
theorem codegen_failure_iff (rng : Nat → BitVec 32) (undefinedShift : Byte → BitVec 32)
    (b : Build) {d d' : Dispatcher Bench} (compiling : Compiles d)
    (fails : (codegen b d.machine.vm.memory d.machine.vm.programCounter).outcome = .bail)
    (next : Dispatcher.step (benchHost rng undefinedShift) b d = some d')
    (env : Bench) (sameCount : env.retired = d.machine.env.retired) :
    (¬ ∃ n last, StopsAt rng undefinedShift
        (staticPath d.machine.vm.memory d.machine.vm.programCounter) ⟨d.machine.vm, env⟩ n last ∧
        SameMachine last.vm d'.machine.vm ∧ last.env.retired = d'.machine.env.retired) ∧
    ((∃ n last, StopsAt rng undefinedShift
        (staticPath d.machine.vm.memory d.machine.vm.programCounter) ⟨d.machine.vm, env⟩ n last ∧
        SameMachine last.vm d'.machine.vm) ↔
      decode (opcodeAt d.machine.vm.memory d.machine.vm.programCounter) = none) := by
  obtain ⟨d'', stepped, -, sameVM, sameEnv⟩ :=
    @bail_step _ (benchHost rng undefinedShift) b d compiling fails
  cases next.symm.trans stepped
  rw [sameVM, sameEnv]
  constructor
  · rintro ⟨n, last, stops, -, count⟩
    have := stops.retired
    rw [count] at this
    dsimp only at this
    omega
  · constructor
    · rintro ⟨n, last, stops, same⟩
      exact decode_none_of_stop fails stops same
    · intro undecodable
      refine ⟨0, benchEnter ⟨d.machine.vm, env⟩, ⟨⟨d.machine.vm, env⟩,
        errorCode (opcodeAt d.machine.vm.memory d.machine.vm.programCounter)
          d.machine.vm.programCounter, rfl, ?_, ?_, ?_⟩, rfl, rfl, rfl⟩
      · intro k u now run
        obtain rfl : k = 0 := Nat.le_zero.mp now
        cases run
        rfl
      · rw [basicBlock_eq]
        simp only [benchEnter, undecodable]
        rfl
      · exact errorCode_ne_zero fun zero => by simp [zero, decode_zero] at undecodable

/-- `SE V0, 1; JP 0x200; 0xffff`: the bad word lies behind a skip never taken. -/
def badWordBehindSkip : List Byte := [0x30, 0x01, 0x12, 0x00, 0xff, 0xff]

def badWordStart : Dispatcher Bench :=
  start (VM.boot badWordBehindSkip) (Bench.initial 10 640 .none)

/-- The first compilation of that program fails, and the interpreter has no such stop. -/
theorem codegen_failure_badWordBehindSkip :
    ∃ d', Dispatcher.step quietHost ⟨.llvm, true, false⟩ badWordStart = some d' ∧
      (¬ ∃ n last, StopsAt (fun _ => 0#32) (fun _ => 0#32)
          (staticPath badWordStart.machine.vm.memory 0x200#16)
          ⟨badWordStart.machine.vm, badWordStart.machine.env⟩ n last ∧
        SameMachine last.vm d'.machine.vm ∧ last.env.retired = d'.machine.env.retired) ∧
      ((∃ n last, StopsAt (fun _ => 0#32) (fun _ => 0#32)
          (staticPath badWordStart.machine.vm.memory 0x200#16)
          ⟨badWordStart.machine.vm, badWordStart.machine.env⟩ n last ∧
        SameMachine last.vm d'.machine.vm) ↔
      decode (opcodeAt badWordStart.machine.vm.memory 0x200#16) = none) := by
  obtain ⟨d', next, -⟩ := @bail_step _ quietHost ⟨.llvm, true, false⟩ badWordStart ⟨rfl, rfl⟩ rfl
  exact ⟨d', next, codegen_failure_iff (fun _ => 0#32) (fun _ => 0#32) ⟨.llvm, true, false⟩
    ⟨rfl, rfl⟩ rfl next (Bench.initial 10 640 .none) rfl⟩

/-- A failed compilation ends a run the interpreter goes on with. -/
theorem codegen_failure_unfaithful :
    ¬ ∀ d d', Run.Reaches (Dispatcher.step quietHost ⟨.llvm, true, false⟩) badWordStart d →
      Compiles d →
      (codegen ⟨.llvm, true, false⟩ d.machine.vm.memory d.machine.vm.programCounter).outcome =
        .bail →
      Dispatcher.step quietHost ⟨.llvm, true, false⟩ d = some d' →
      ∃ n last, StopsAt (fun _ => 0#32) (fun _ => 0#32)
          (staticPath d.machine.vm.memory d.machine.vm.programCounter)
          ⟨d.machine.vm, d.machine.env⟩ n last ∧
        SameMachine last.vm d'.machine.vm ∧ last.env.retired = d'.machine.env.retired := by
  intro faithful
  obtain ⟨d', next, -, sameVM, -⟩ :=
    @bail_step _ quietHost ⟨.llvm, true, false⟩ badWordStart ⟨rfl, rfl⟩ rfl
  obtain ⟨n, last, stops, same, -⟩ := faithful badWordStart d' ⟨0, rfl⟩ ⟨rfl, rfl⟩ rfl next
  rw [sameVM] at same
  -- The word at the entry is the skip, which the interpreter does not reject.
  have undecodable := @decode_none_of_stop _ _ ⟨.llvm, true, false⟩ _ rfl _ _ _ _ stops same
  exact absurd undecodable (by decide)

end Jit

end ChipEight
