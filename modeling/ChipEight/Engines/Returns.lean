import ChipEight.Library.Bracket
import ChipEight.Machine.Bench
import ChipEight.Machine.Interactive
import ChipEight.Opt.TailCall

/-! Calls and returns.

The return addresses are out of a program's reach: `CALL` and `RET` alone touch the stack, and
they keep it bracketed. Every return therefore goes behind the call it belongs to, with the stack
that call was made on, whatever the program stores meanwhile.
-/

set_option autoImplicit false

namespace ChipEight

open Opt (frames pushFrame popFrame frames_push frames_pop frames_length)

/-! ## One instruction -/

/-- What an instruction does to the stack. -/
inductive StackStep (vm vm' : VM) : Prop where
  | keeps (same : frames vm' = frames vm) (pointer : vm'.stackPointer = vm.stackPointer)
  | calls {nnn : Addr} (decoded : decode (opcodeAt vm.memory vm.programCounter) = some (.call nnn))
      (pushed : frames vm' = frames vm ++ [vm.programCounter + 2])
      (pointer : vm'.stackPointer = vm.stackPointer + 1)
  | returns (decoded : decode (opcodeAt vm.memory vm.programCounter) = some .ret)
      (popped : frames vm = frames vm' ++ [vm'.programCounter])
      (pointer : vm.stackPointer = vm'.stackPointer + 1) (left : 0 ≤ vm'.stackPointer)

section
variable {vm vm' : VM}

theorem StackStep.of_same (stack : vm'.stack = vm.stack)
    (pointer : vm'.stackPointer = vm.stackPointer) : StackStep vm vm' :=
  .keeps (by rw [frames, frames, stack, pointer]) pointer

theorem StackStep.nonneg (stepped : StackStep vm vm') (start : 0 ≤ vm.stackPointer) :
    0 ≤ vm'.stackPointer := by
  cases stepped with
  | keeps same pointer => exact pointer ▸ start
  | calls decoded pushed pointer =>
    rw [pointer]
    exact Int.add_nonneg start Int.one_nonneg
  | returns decoded popped pointer left => exact left

theorem StackStep.moves (stepped : StackStep vm vm') : Bracket.Moves (frames vm) (frames vm') := by
  cases stepped with
  | keeps same pointer => exact .inl same
  | calls decoded pushed pointer => exact .inr (.inl ⟨_, pushed⟩)
  | returns decoded popped pointer left => exact .inr (.inr ⟨_, popped⟩)

theorem StackStep.called (stepped : StackStep vm vm') {v : Word}
    (pushed : frames vm' = frames vm ++ [v]) :
    (∃ nnn, decode (opcodeAt vm.memory vm.programCounter) = some (.call nnn)) ∧
      v = vm.programCounter + 2 := by
  cases stepped with
  | keeps same pointer =>
    have long := congrArg List.length (same.symm.trans pushed)
    rw [List.length_append, List.length_singleton] at long
    omega
  | calls decoded pushed' pointer =>
    obtain ⟨-, top⟩ := List.append_inj' (pushed.symm.trans pushed') rfl
    exact ⟨⟨_, decoded⟩, List.singleton_inj.mp top⟩
  | returns decoded popped pointer left =>
    have long := congrArg List.length popped
    rw [pushed, List.length_append, List.length_append, List.length_singleton] at long
    omega

theorem StackStep.returned (stepped : StackStep vm vm')
    (fewer : vm'.stackPointer < vm.stackPointer) :
    decode (opcodeAt vm.memory vm.programCounter) = some .ret ∧
      frames vm = frames vm' ++ [vm'.programCounter] := by
  cases stepped with
  | keeps same pointer => omega
  | calls decoded pushed pointer => omega
  | returns decoded popped pointer left => exact ⟨decoded, popped⟩

end

/-- `CALL` and `RET` push and pop a frame where they do not fail; nothing else touches them. -/
theorem basicBlock_stack {E : Type} (P : Platform E) (s : State E) (start : 0 ≤ s.vm.stackPointer) :
    StackStep s.vm (Interpreter.basicBlock P s).2.vm := by
  rw [basicBlock_eq]
  cases decoded : decode (opcodeAt s.vm.memory s.vm.programCounter) with
  | none => exact .of_same rfl rfl
  | some i =>
    by_cases isRet : i = .ret
    · subst isRet
      by_cases pending : s.vm.stackPointer > 0
      · have popped : (Insn.exec P (opcodeAt s.vm.memory s.vm.programCounter) .ret s).2.vm =
            popFrame s.vm := by
          simp only [Insn.exec, Interpreter.retern, if_pos pending]
          rfl
        show StackStep s.vm (Insn.exec P _ .ret s).2.vm
        rw [popped]
        exact .returns decoded (frames_pop s.vm pending) (Int.sub_add_cancel _ _).symm
          (Int.sub_nonneg_of_le pending)
      · refine .of_same ?_ ?_ <;> simp only [Insn.exec, Interpreter.retern, if_neg pending] <;> rfl
    · by_cases isCall : ∃ nnn, i = .call nnn
      · obtain ⟨nnn, rfl⟩ := isCall
        by_cases room : s.vm.stackPointer < (stackSize : Int)
        · have pushed : (Insn.exec P (opcodeAt s.vm.memory s.vm.programCounter) (.call nnn) s).2.vm =
              pushFrame s.vm (nnn.setWidth 16) := by
            simp only [Insn.exec, if_pos room]
            rfl
          show StackStep s.vm (Insn.exec P _ (.call nnn) s).2.vm
          rw [pushed]
          exact .calls decoded (frames_push s.vm _ start) rfl
        · refine .of_same ?_ ?_ <;> simp only [Insn.exec, if_neg room] <;> rfl
      · obtain ⟨stack, pointer⟩ := exec_stack P (opcodeAt s.vm.memory s.vm.programCounter) isRet
          (fun nnn same => isCall ⟨nnn, same⟩) s
        exact .of_same stack pointer

/-! ## Runs -/

section
variable {S : Type} (step : S → Option S) (vm : S → VM)

/-- In every run that starts with an empty stack, a step that takes a frame off it is a `RET`, and
it goes behind the `CALL` of an earlier step: to the address behind it, and with the frames that
the `CALL` found. In between these were under the frame of the `CALL` all the time. -/
def Bracketed : Prop :=
  ∀ (start : S) (n : Nat) (s t : S), (vm start).stackPointer = 0 →
    Run.after step n start = some s → step s = some t →
    (vm t).stackPointer < (vm s).stackPointer →
      decode (opcodeAt (vm s).memory (vm s).programCounter) = some .ret ∧
      ∃ k c, k < n ∧ Run.after step k start = some c ∧
        (∃ nnn, decode (opcodeAt (vm c).memory (vm c).programCounter) = some (.call nnn)) ∧
        (vm t).programCounter = (vm c).programCounter + 2 ∧ frames (vm t) = frames (vm c) ∧
        ∀ j u, k < j → j ≤ n → Run.after step j start = some u →
          frames (vm c) ++ [(vm c).programCounter + 2] <+: frames (vm u)

variable {step} {vm}

theorem bracketed_of (stepped : ∀ s t, 0 ≤ (vm s).stackPointer → step s = some t →
    StackStep (vm s) (vm t)) : Bracketed step vm := by
  intro start n s t empty run next fewer
  have nonneg : ∀ s t, 0 ≤ (vm s).stackPointer → step s = some t → 0 ≤ (vm t).stackPointer :=
    fun s t at_ next => (stepped s t at_ next).nonneg at_
  have begins : 0 ≤ (vm start).stackPointer := by rw [empty]
  have here := Run.invariant nonneg begins run
  obtain ⟨decoded, popped⟩ := (stepped s t here next).returned fewer
  have low : (frames (vm start)).length ≤ (frames (vm t)).length := by
    rw [frames_length, empty]
    exact Nat.zero_le _
  obtain ⟨k, c, pushed⟩ := @Bracket.matched S Word step (fun s => frames (vm s)) start
    (fun s => 0 ≤ (vm s).stackPointer) nonneg (fun s t at_ next => (stepped s t at_ next).moves)
    begins _ _ low n s run popped
  obtain ⟨d, calls, above⟩ := pushed.pushes
  have found : frames (vm c) = frames (vm t) := pushed.before
  obtain ⟨call, behind⟩ :=
    (stepped c d (Run.invariant nonneg begins pushed.reached) calls).called (found ▸ above)
  refine ⟨decoded, k, c, pushed.earlier, pushed.reached, call, behind, found.symm, ?_⟩
  rw [found, ← behind]
  exact pushed.since

end

/-- Calls are bracketed in the interpreter: on any host, under `BENCH`, and with `--elide-idle`. -/
theorem calls_bracketed :
    (∀ (E : Type) (P : Platform E), Bracketed (mainStep P) State.vm) ∧
    (∀ (rng : Nat → BitVec 32) (undefinedShift : Byte → BitVec 32),
      Bracketed (benchStep rng undefinedShift) State.vm) ∧
    ∀ (o : Outside) (undefinedShift : Byte → BitVec 32) (elideIdle : Bool),
      Bracketed (liveStep o undefinedShift elideIdle) fun m => m.state.vm := by
  refine ⟨fun E P => bracketed_of ?_, fun rng undefinedShift => bracketed_of ?_,
    fun o undefinedShift elideIdle => bracketed_of ?_⟩
  · intro s t nonneg next
    unfold mainStep at next
    dsimp only at next
    split at next
    · cases next
    · have stepped := basicBlock_stack P { s with env := (P.allKeysDown s.env).2 } nonneg
      rw [(blockStep_eq_some P).mp next] at stepped
      exact stepped
  · intro s t nonneg next
    have stepped := basicBlock_stack (benchPlatform rng undefinedShift) (benchEnter s) nonneg
    rw [(benchStep_eq_some rng undefinedShift).mp next] at stepped
    exact stepped
  · intro m m' nonneg next
    obtain ⟨phase, s⟩ := m
    cases phase with
    | loop =>
      cases next
      unfold mainPass
      split
      · exact .of_same rfl rfl
      split
      · exact .of_same rfl rfl
      · dsimp only
        split <;> exact basicBlock_stack (livePlatform o undefinedShift) s nonneg
    | idleWait reg =>
      cases next
      unfold idlePass
      split <;> exact .of_same rfl rfl
    | finished => cases next

/-- A subroutine at 0x204 that calls one at 0x208. -/
def nestedCalls : List Byte :=
  [0x22#8, 0x04#8, 0x12#8, 0x02#8, 0x22#8, 0x08#8, 0x00#8, 0xEE#8, 0x00#8, 0xEE#8]

theorem calls_bracketed_nestedCalls :
    ∃ s t, Run.after (liveStep quietOutside (fun _ => 0#32) true) 3 (Main.boot nestedCalls 0) =
        some s ∧
      liveStep quietOutside (fun _ => 0#32) true s = some t ∧
      t.state.vm.programCounter = 0x202#16 ∧
      ∃ k c, k < 3 ∧
        Run.after (liveStep quietOutside (fun _ => 0#32) true) k (Main.boot nestedCalls 0) =
          some c ∧
        (∃ nnn, decode (opcodeAt c.state.vm.memory c.state.vm.programCounter) =
          some (.call nnn)) ∧
        c.state.vm.programCounter = 0x200#16 ∧ frames t.state.vm = frames c.state.vm := by
  refine ⟨_, _, rfl, rfl, rfl, ?_⟩
  obtain ⟨-, k, c, earlier, run, call, behind, same, -⟩ :=
    calls_bracketed.2.2 quietOutside (fun _ => 0#32) true (Main.boot nestedCalls 0) 3 _ _ rfl rfl
      rfl (by decide)
  refine ⟨k, c, earlier, run, call, ?_, same⟩
  have back : (0x200#16 : Word) + 2 = c.state.vm.programCounter + 2 := behind
  exact (add_right_cancel back).symm

end ChipEight
