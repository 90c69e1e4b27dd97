import ChipEight.Jit.Listing
import ChipEight.Jit.LiveHost
import ChipEight.Machine.Elision

/-! Waiting a delay-timer poll loop out in the native code of a trace.

`jit_idle_wait` is called in front of a back edge to the loop's header. The header is then run once
more, with what the generators emit for its two instructions, a periodic safepoint included.
-/

set_option autoImplicit false

namespace ChipEight

namespace Jit

/-! ## Parts of a block -/

section
variable {E : Type} (P : Host E)

/-- Running `k` on a frame comes to the rest `k'` and its frame. -/
inductive Code.Comes : Code → Frame E → Code → Frame E → Prop
  | here {k : Code} {f : Frame E} : Comes k f k f
  | op {o : Op} {k k' : Code} {f g h : Frame E} (ran : o.run P f = some g)
      (rest : Comes k g k' h) : Comes (.op o k) f k' h
  | taken {c : Comparison} {x y : Value 8} {taken fallen k' : Code} {f h : Frame E}
      (holds : c.eval (f.value x) (f.value y) = true) (rest : Comes taken f k' h) :
      Comes (.cond c x y taken fallen) f k' h
  | fallen {c : Comparison} {x y : Value 8} {taken fallen k' : Code} {f h : Frame E}
      (fails : c.eval (f.value x) (f.value y) = false) (rest : Comes fallen f k' h) :
      Comes (.cond c x y taken fallen) f k' h

variable {P}

theorem Code.Comes.run {k k' : Code} {f g : Frame E} (comes : Comes P k f k' g) :
    k.run P f = k'.run P g := by
  induction comes with
  | here => rfl
  | op ran rest ih =>
    rw [Code.run, ran]
    exact ih
  | taken holds rest ih =>
    rw [Code.run, if_pos holds]
    exact ih
  | fallen fails rest ih =>
    rw [Code.run, fails]
    exact ih

theorem Code.Comes.backs {k k' : Code} {f g : Frame E} (comes : Comes P k f k' g) {t : Word}
    (back : t ∈ k'.backs) : t ∈ k.backs := by
  induction comes with
  | here => exact back
  | op _ _ ih => exact ih back
  | taken _ _ ih => exact List.mem_append_left _ (ih back)
  | fallen _ _ ih => exact List.mem_append_right _ (ih back)

theorem comes_seq {ops : List Op} {k : Code} {f g : Frame E} (ran : runAll P ops f = some g) :
    Code.Comes P (seq ops k) f k g := by
  induction ops generalizing f with
  | nil =>
    cases ran
    exact .here
  | cons o ops ih =>
    obtain ⟨f', first, rest⟩ := Option.bind_eq_some_iff.mp ran
    exact .op first (ih rest)

theorem Code.Comes.trans {k k' k'' : Code} {f g h : Frame E} (first : Comes P k f k' g)
    (second : Comes P k' g k'' h) : Comes P k f k'' h := by
  induction first with
  | here => exact second
  | op ran _ ih => exact .op ran (ih second)
  | taken holds _ ih => exact .taken holds (ih second)
  | fallen fails _ ih => exact .fallen fails (ih second)

/-- What the periodic safepoint in front of instruction `i` does, if there is one. -/
def passed (P : Host E) (i : Nat) (e : E) : E :=
  if i ≠ 0 ∧ i % safepointInterval = 0 then P.safepoint e else e

theorem runAll_prologue (backend : Backend) (elides : Bool) (i : Nat) (f : Frame E) :
    runAll P (prologue ⟨backend, false, elides⟩ i) f = some (f.mapEnv (passed P i)) := by
  unfold prologue passed
  split <;> rfl

/-! ## Blocks of a running trace -/

variable {b : Build}

theorem step_running {d : Dispatcher E} {t : Trace} {a : Word} {code : Code} {m : Machine E}
    {exit : Exit} (here : d.position = .running t a) (found : t.block a = some code)
    (ran : code.run P ⟨d.machine, fun _ => 0#8⟩ = some (m, exit)) :
    Dispatcher.step P b d = some { d with machine := m, position := Dispatcher.leave t exit } := by
  simp only [Dispatcher.step, here, found, ran, Option.bind_eq_bind, Option.bind_some]

/-- The memory a running trace was compiled from, as far as that is still known. -/
structure Origin (b : Build) (d : Dispatcher E) (t : Trace) (memory : Memory) : Prop where
  laid : Laid b t.blocks
  listed : ∀ (i : Nat) (a : Word) (code : Code), t.blocks[i]? = some (a, code) →
    Listed b memory t.blocks i a code
  opcodes : ∀ (i : Nat) (a : Word) (code : Code), t.blocks[i]? = some (a, code) →
    opcodeAt d.machine.vm.memory a = opcodeAt memory a
  fused : ∀ (i : Nat) (a : Word) (code : Code), t.blocks[i]? = some (a, code) →
    isSkip (opcodeAt memory a) = true →
      opcodeAt d.machine.vm.memory (a + 2) = opcodeAt memory (a + 2)

theorem Coherent.origin {d : Dispatcher E} (coherent : Coherent b d) {t : Trace} {a : Word}
    (inside : d.position = .running t a ∨ d.position = .backedge t a) :
    ∃ memory, Origin b d t memory := by
  obtain ⟨cached, -⟩ := coherent.current t a inside
  obtain ⟨-, memory, rest, made, reads⟩ := coherent.traced _ t cached
  have clear : d.machine.smcPending = false := by
    apply coherent.settled
    rcases inside with here | here <;> simp [here]
  have agrees {i : Nat} {a : Word} {code : Code} (here : t.blocks[i]? = some (a, code)) (byte : Addr)
      (v : Byte) (read : (byte, v) ∈ passReads memory a) :
      d.machine.vm.memory byte = memory byte := by
    have logged := (codegenLoop_compiled b memory made).logged a code (List.mem_of_getElem? here)
    rw [coherent.fresh clear _ _ cached byte v (reads ▸ logged read), passReads_value memory read]
  refine ⟨memory, (codegen_laid made).1, fun i a code here => codegen_listed made here, ?_, ?_⟩
  · exact fun i a code here => agreeing_opcode (agrees here)
  · intro i a code here skips
    apply opcodeAt_congr
    intro byte v read
    apply agrees here byte v
    apply List.mem_append_right
    rwa [if_pos skips]

theorem block_at {t : Trace} (distinct : (t.blocks.map Prod.fst).Nodup) {i : Nat} {a : Word}
    {code : Code} (inside : t.blocks[i]? = some (a, code)) : t.block a = some code := by
  have present : (t.blocks.lookup a).isSome := List.lookup_isSome_iff.mpr
    ⟨(a, code), List.mem_of_getElem? inside, beq_self_eq_true a⟩
  obtain ⟨code', found⟩ := Option.isSome_iff_exists.mp present
  obtain ⟨j, there⟩ := @block_here t a code' found
  obtain rfl := unique_index distinct inside there
  cases inside.symm.trans there
  exact found

/-! ## The header of the loop -/

/-- Block `i` with the poll of the loop. -/
def pollBlock (b : Build) (i : Nat) (x : Reg) (rest : Code) : Code :=
  seq (prologue b i) (seq (b.syncTimers ++ [.getDelay x]) rest)

/-- Block `i` with the test of the loop, which goes on at `pc`. -/
def testBlock (b : Build) (i : Nat) (x : Reg) (pc : Word) (rest fallen : Code) : Code :=
  let c := emitSkipCond b (.eqImm x 0#8)
  seq (prologue b i) (seq c.2.1 (.cond c.1 c.2.2.1 c.2.2.2 (.op (.setPc (.const pc)) rest) fallen))

theorem Listed.poll {memory : Memory} {blocks : List (Word × Code)} {i : Nat} {a : Word}
    {code : Code} {x : Reg} (listed : Listed b memory blocks i a code)
    (decoded : decode (opcodeAt memory a) = some (.ldDelay x)) :
    (∃ code', blocks[i + 1]? = some (a + 2, code') ∧ code = pollBlock b i x (.goto (a + 2))) ∨
      blocks.length = i + 1 ∧ code = pollBlock b i x (closeLoop b memory (a + 2)) := by
  cases listed with
  | stop decoded' known emitted =>
    cases decoded.symm.trans decoded'
    cases emitted
  | next decoded' known emitted there =>
    cases decoded.symm.trans decoded'
    cases emitted
    exact .inl ⟨_, there, rfl⟩
  | last decoded' known emitted closes final =>
    cases decoded.symm.trans decoded'
    cases emitted
    exact .inr ⟨final, rfl⟩

theorem Listed.skip {memory : Memory} {blocks : List (Word × Code)} {i : Nat} {a : Word}
    {code : Code} {c : SkipCond} (listed : Listed b memory blocks i a code)
    (decoded : decode (opcodeAt memory a) = some (.skip c)) :
    ∃ pcBlock rest, (∀ t, t ∈ pcBlock ↔ Earlier blocks i t) ∧
      code = seq (prologue b i) (seq (emitSkipCond b c).2.1 (.cond (emitSkipCond b c).1
        (emitSkipCond b c).2.2.1 (emitSkipCond b c).2.2.2 (.op (.setPc (.const (a + 4))) rest)
        (b.emitFallen (b.idleWait memory) pcBlock a (opcodeAt memory (a + 2))))) := by
  cases listed with
  | stop decoded' known emitted =>
    cases decoded.symm.trans decoded'
    cases emitted
  | next decoded' known emitted there =>
    cases decoded.symm.trans decoded'
    cases emitted
    exact ⟨_, _, known, rfl⟩
  | last decoded' known emitted closes final =>
    cases decoded.symm.trans decoded'
    cases emitted
    exact ⟨_, _, known, rfl⟩

theorem Origin.header {d : Dispatcher E} {t : Trace} {memory : Memory}
    (origin : Origin b d t memory) {k : Nat} {a pc : Word} {code : Code}
    (source : t.blocks[k]? = some (a, code)) (back : pc ∈ code.backs) {x : Reg}
    (poll : decode (opcodeAt memory pc) = some (.ldDelay x)) :
    ∃ i code', t.blocks[i]? = some (pc, pollBlock b i x (.goto (pc + 2))) ∧
      t.blocks[i + 1]? = some (pc + 2, code') := by
  obtain ⟨i, within, head, inside⟩ := (origin.listed k a code source).backs back
  obtain ⟨code', next, rfl⟩ | ⟨final, rfl⟩ := (origin.listed i pc head inside).poll poll
  · exact ⟨i, code', inside, next⟩
  · -- The poll in the last block closes onto the test, so no back edge leads to it.
    have small := (List.getElem?_eq_some_iff.mp source).1
    obtain rfl : k = i := by omega
    cases inside.symm.trans source
    rw [pollBlock, seq_backs, seq_backs, closeLoop, seq_backs] at back
    exact absurd (List.mem_singleton.mp back) (pc_apart _).1

theorem jump_of_recognised {memory : Memory} {pc : Word} {x : Reg}
    (loop : idleDelayLoop memory pc = some x) :
    isSkip (opcodeAt memory (pc + 2)) = true ∧ opClass (opcodeAt memory (pc + 4)) = 1 ∧
      target (opcodeAt memory (pc + 4)) = pc := by
  unfold idleDelayLoop at loop
  dsimp only at loop
  split at loop
  · cases loop
  split at loop
  · cases loop
  rename_i test
  split at loop
  · cases loop
  rename_i back
  rw [not_or, not_not, not_not] at test back
  refine ⟨?_, ?_, (target_and _).trans back.2⟩
  · unfold isSkip opClass
    rw [and_of_and test.1 (by decide)]
    rfl
  · unfold opClass
    rw [back.1]
    rfl

/-- The code of the loop behind one of its back edges: the poll, and the test with the jump folded
into it. -/
theorem Origin.loop {d : Dispatcher E} {t : Trace} {memory : Memory}
    (origin : Origin b d t memory) {k : Nat} {a pc : Word} {code : Code}
    (source : t.blocks[k]? = some (a, code)) (back : pc ∈ code.backs) {x : Reg}
    (recognised : idleDelayLoop d.machine.vm.memory pc = some x) :
    ∃ (i : Nat) (rest : Code),
      t.blocks[i]? = some (pc, pollBlock b i x (.goto (pc + 2))) ∧
      t.blocks[i + 1]? = some (pc + 2, testBlock b (i + 1) x (pc + 2 + 4) rest
        (seq (b.retire 1 ++ [.safepoint, .setPc (.const pc)] ++ b.idleWait memory pc)
          (.backedge pc))) := by
  have place := idleAt_of_recognised recognised
  obtain ⟨skips, jumps, home⟩ := jump_of_recognised recognised
  obtain ⟨j, -, head, there⟩ := (origin.listed k a code source).backs back
  have poll := place.poll
  rw [origin.opcodes j pc head there] at poll
  obtain ⟨i, code', header, next⟩ := origin.header source back poll
  have test := place.test
  rw [origin.opcodes (i + 1) (pc + 2) code' next] at test skips
  obtain ⟨pcBlock, rest, known, shape⟩ := (origin.listed (i + 1) (pc + 2) code' next).skip test
  have behind : pc + 2 + 2 = pc + 4 := by
    rw [BitVec.add_assoc]
    rfl
  have fused := origin.fused (i + 1) (pc + 2) code' next skips
  rw [behind] at fused
  rw [behind, ← fused] at shape
  have inside : pc ∈ pcBlock := (known pc).mpr ⟨i, Nat.le_succ i, _, header⟩
  refine ⟨i, rest, header, next.trans ?_⟩
  rw [shape]
  unfold Build.emitFallen
  simp only [jumps, home, if_true, if_pos inside]
  rfl

end

/-! ## Behind the wait -/

section
variable {backend : Backend} {b : Build} {E : Type} {P : Host E}

theorem test_comes (elides : Bool) (i : Nat) (x : Reg) (pc : Word) (rest fallen : Code)
    {f : Frame E} (zero : f.machine.vm.regs x = 0#8) :
    ∃ g, Code.Comes P (testBlock ⟨backend, false, elides⟩ i x pc rest fallen) f rest g ∧
      g.machine = { f.machine with
        vm := f.machine.vm.setPc pc
        env := passed P i f.machine.env } := by
  have entered (k : Code) := comes_seq (k := k) (runAll_prologue (P := P) backend elides i f)
  cases backend with
  | libgccjit =>
    refine ⟨_, (entered _).trans (.taken ?_ (.op rfl .here)), rfl⟩
    exact beq_iff_eq.mpr zero
  | llvm =>
    refine ⟨_, (entered _).trans (.op rfl (.taken ?_ (.op rfl .here))), rfl⟩
    simp only [emitSkipCond, Build.operand, Frame.value, Value.eval, Function.update_self]
    exact beq_iff_eq.mpr zero

theorem test_falls (elides : Bool) (i : Nat) (x : Reg) (pc : Word) (rest fallen : Code)
    {f : Frame E} (waits : f.machine.vm.regs x ≠ 0#8) :
    ∃ g, Code.Comes P (testBlock ⟨backend, false, elides⟩ i x pc rest fallen) f fallen g ∧
      g.machine = f.machine.mapEnv (passed P i) := by
  have entered (k : Code) := comes_seq (k := k) (runAll_prologue (P := P) backend elides i f)
  cases backend with
  | libgccjit =>
    refine ⟨_, (entered _).trans (.fallen ?_ .here), rfl⟩
    exact beq_eq_false_iff_ne.mpr waits
  | llvm =>
    refine ⟨_, (entered _).trans (.op rfl (.fallen ?_ .here)), rfl⟩
    simp only [emitSkipCond, Build.operand, Frame.value, Value.eval, Function.update_self]
    exact beq_eq_false_iff_ne.mpr waits

theorem wait_pc {t : Trace} (laid : Laid b t.blocks) {k : Nat} {a pc : Word} {code : Code}
    (inside : t.blocks[k]? = some (a, code)) {f g : Frame E}
    (comes : Code.Comes P code f (.op (.call .idleWait) (.backedge pc)) g) :
    g.machine.vm.programCounter = pc := by
  obtain ⟨body, rfl, wellMade⟩ := laid.built k a code inside
  have reached := backedge_pc P (wellMade.behind (prologue b k))
    (show runAll P [] f = some f from rfl) comes.run
  rwa [idleWait_pc] at reached

variable {o : Outside} {signals : Signals} {undefinedShift : Byte → BitVec 32}

theorem poll_run (elides : Bool) (i : Nat) (x : Reg) (pc : Word) (f : Frame JitLive) :
    (pollBlock ⟨backend, false, elides⟩ i x (.goto pc)).run (liveHost o signals undefinedShift) f =
      some ({ f.machine with
        vm := f.machine.vm.setReg x
          (passed (liveHost o signals undefinedShift) i f.machine.env).live.delayTimer
        env := passed (liveHost o signals undefinedShift) i f.machine.env }, .goto pc) := by
  rw [pollBlock, seq_run, runAll_prologue, Option.bind_some]
  rfl

theorem checkInterrupt_expired {e : JitLive} (expired : e.live.delayTimer = 0#8) :
    (e.checkInterrupt o signals).live.delayTimer = 0#8 := by
  unfold JitLive.checkInterrupt
  dsimp only
  split
  · unfold Live.interrupt Live.countTimers
    split
    · simp only [Live.recordKeys, expired]
      rfl
    · exact expired
  · exact expired

theorem passed_expired (i : Nat) {e : JitLive} (expired : e.live.delayTimer = 0#8) :
    (passed (liveHost o signals undefinedShift) i e).live.delayTimer = 0#8 := by
  unfold passed
  split
  · exact checkInterrupt_expired expired
  · exact expired

/-- Behind a wait that has run the timer out control gets to the test of the loop in three steps. -/
theorem wait_polls {d : Dispatcher JitLive} (coherent : Coherent ⟨backend, false, true⟩ d)
    {t : Trace} {a pc : Word} {code : Code} (here : d.position = .running t a)
    (found : t.block a = some code) {f : Frame JitLive}
    (comes : Code.Comes (liveHost o signals undefinedShift) code ⟨d.machine, fun _ => 0#8⟩
      (.op (.call .idleWait) (.backedge pc)) f) {x : Reg}
    (loop : idleDelayLoop f.machine.vm.memory pc = some x) {e : JitLive}
    (waited : e = f.machine.env.idleWait o signals) (goesOn : e.programOver = false)
    (expired : e.live.delayTimer = 0#8) :
    ∃ (memory : Memory) (i : Nat) (rest : Code), Laid ⟨backend, false, true⟩ t.blocks ∧
      t.blocks[i]? = some (pc, pollBlock ⟨backend, false, true⟩ i x (.goto (pc + 2))) ∧
      t.blocks[i + 1]? = some (pc + 2, testBlock ⟨backend, false, true⟩ (i + 1) x (pc + 2 + 4) rest
        (seq ([.safepoint, .setPc (.const pc)] ++ Build.idleWait ⟨backend, false, true⟩ memory pc)
          (.backedge pc))) ∧
      f.machine.vm.programCounter = pc ∧
      Run.after (Dispatcher.step (liveHost o signals undefinedShift) ⟨backend, false, true⟩) 3 d =
        some { d with
          machine := { f.machine with
            vm := f.machine.vm.setReg x 0#8
            env := passed (liveHost o signals undefinedShift) i e }
          position := .running t (pc + 2) } := by
  obtain ⟨k, inside⟩ := block_here found
  obtain ⟨memory₀, origin₀⟩ := coherent.origin (.inl here)
  have stored := wait_pc origin₀.laid inside comes
  -- The call, and the test of `program_over`.
  have calls : f.machine.idleWait (liveHost o signals undefinedShift) =
      { f.machine with vm := f.machine.vm.setReg x 0#8, env := e } := by
    unfold Machine.idleWait
    rw [stored, loop, waited]
    rfl
  have step₁ := @step_running _ (liveHost o signals undefinedShift) ⟨backend, false, true⟩ d t a code
    _ (.backedge pc) here found (comes.run.trans (congrArg (fun m => some (m, _)) calls))
  obtain ⟨memory, origin⟩ := (step_coherent _ _ coherent step₁).origin (.inr rfl)
  obtain ⟨i, rest, header, next⟩ := origin.loop inside (comes.backs (List.mem_singleton_self pc)) loop
  have step₂ : Dispatcher.step (liveHost o signals undefinedShift) ⟨backend, false, true⟩
      { d with
        machine := { f.machine with vm := f.machine.vm.setReg x 0#8, env := e }
        position := .backedge t pc } =
        some { d with
          machine := { f.machine with vm := f.machine.vm.setReg x 0#8, env := e }
          position := .running t pc } := by
    refine if_neg ?_
    rw [show (liveHost o signals undefinedShift).programOver e = false from goesOn]
    exact Bool.false_ne_true
  -- The poll.
  have polled : (pollBlock ⟨backend, false, true⟩ i x (.goto (pc + 2))).run
        (liveHost o signals undefinedShift)
        ⟨{ f.machine with vm := f.machine.vm.setReg x 0#8, env := e }, fun _ => 0#8⟩ =
      some ({ f.machine with
        vm := f.machine.vm.setReg x 0#8
        env := passed (liveHost o signals undefinedShift) i e }, .goto (pc + 2)) := by
    rw [poll_run]
    dsimp only
    rw [passed_expired i expired, setReg_setReg]
  have step₃ := @step_running _ (liveHost o signals undefinedShift) ⟨backend, false, true⟩
    { d with
      machine := { f.machine with vm := f.machine.vm.setReg x 0#8, env := e }
      position := .running t pc } t pc _ _ _ rfl
    (block_at origin.laid.distinct header) polled
  exact ⟨memory, i, rest, origin.laid, header, next, stored,
    Run.after_succ.mpr ⟨_, Run.after_succ.mpr ⟨_, step₁, step₂⟩, step₃⟩⟩

theorem wait_leaves {d : Dispatcher JitLive} (coherent : Coherent ⟨backend, false, true⟩ d)
    {t : Trace} {a pc : Word} {code : Code} (here : d.position = .running t a)
    (found : t.block a = some code) {f : Frame JitLive}
    (comes : Code.Comes (liveHost o signals undefinedShift) code ⟨d.machine, fun _ => 0#8⟩
      (.op (.call .idleWait) (.backedge pc)) f) {x : Reg}
    (loop : idleDelayLoop f.machine.vm.memory pc = some x) {e : JitLive}
    (waited : e = f.machine.env.idleWait o signals) (goesOn : e.programOver = false)
    (expired : e.live.delayTimer = 0#8) :
    ∃ (d' : Dispatcher JitLive) (i : Nat) (head code' rest : Code) (g : Frame JitLive),
      Run.after (Dispatcher.step (liveHost o signals undefinedShift) ⟨backend, false, true⟩) 3 d =
          some d' ∧ d'.position = .running t (pc + 2) ∧
        t.blocks[i]? = some (pc, head) ∧ t.block (pc + 2) = some code' ∧
        Code.Comes (liveHost o signals undefinedShift) code' ⟨d'.machine, fun _ => 0#8⟩ rest g ∧
        g.machine.vm = leaveIdle x f.machine.vm ∧
        g.machine.env = passed (liveHost o signals undefinedShift) (i + 1)
          (passed (liveHost o signals undefinedShift) i e) := by
  obtain ⟨memory, i, rest, laid, header, next, stored, run⟩ :=
    wait_polls coherent here found comes loop waited goesOn expired
  -- The test skips the jump back.
  obtain ⟨g, behind, after⟩ := @test_comes backend JitLive (liveHost o signals undefinedShift) true
    (i + 1) x (pc + 2 + 4) rest _
    ⟨{ f.machine with
      vm := f.machine.vm.setReg x 0#8
      env := passed (liveHost o signals undefinedShift) i e }, fun _ => 0#8⟩ (regs_setReg _ _ _)
  refine ⟨_, i, _, _, rest, g, run, rfl, header, block_at laid.distinct next, behind, ?_, ?_⟩
  · rw [after]
    unfold leaveIdle
    rw [stored, BitVec.add_assoc]
    rfl
  · rw [after]

/-- A periodic safepoint stands in the header at `pc`. -/
def Trace.Polls (t : Trace) (pc : Word) : Prop :=
  ∃ (i : Nat) (code : Code), t.blocks[i]? = some (pc, code) ∧
    (i ≠ 0 ∧ i % safepointInterval = 0 ∨ (i + 1) % safepointInterval = 0)

/-- The header of the loop at `pc` services the host once more, and there is a new tick. -/
structure Late (o : Outside) (signals : Signals) (t : Trace) (pc : Word) (e : JitLive) : Prop where
  polls : t.Polls pc
  pending : signals.pending e.tested = true
  tick : o.ticks e.live.serviced ≠ e.live.lastTick

theorem passed_header (i : Nat) (e : E) :
    (passed P (i + 1) (passed P i e) = P.safepoint e ∧
        (i ≠ 0 ∧ i % safepointInterval = 0 ∨ (i + 1) % safepointInterval = 0)) ∨
      passed P (i + 1) (passed P i e) = e ∧
        ¬ (i ≠ 0 ∧ i % safepointInterval = 0 ∨ (i + 1) % safepointInterval = 0) := by
  unfold passed safepointInterval
  by_cases first : i ≠ 0 ∧ i % 32 = 0
  · left
    rw [if_pos first, if_neg (by omega)]
    exact ⟨rfl, .inl first⟩
  · rw [if_neg first]
    by_cases second : (i + 1) % 32 = 0
    · left
      rw [if_pos ⟨Nat.succ_ne_zero i, second⟩]
      exact ⟨rfl, .inr second⟩
    · right
      rw [if_neg fun both => second both.2]
      exact ⟨rfl, fun one => one.elim first second⟩

theorem checkInterrupt_sound (e : JitLive) :
    (e.checkInterrupt o signals).live.soundTimer.toNat = e.live.soundTimer.toNat -
      (if signals.pending e.tested = true ∧ o.ticks e.live.serviced ≠ e.live.lastTick then 1
        else 0) := by
  unfold JitLive.checkInterrupt
  by_cases pending : signals.pending e.tested = true
  · rw [if_pos pending]
    unfold Live.interrupt Live.countTimers
    by_cases tick : o.ticks e.live.serviced ≠ e.live.lastTick
    · rw [if_pos tick, if_pos ⟨pending, tick⟩]
      exact countDown_toNat _
    · rw [if_neg tick, if_neg fun both => tick both.2]
      rfl
  · rw [if_neg pending, if_neg fun both => pending both.1]
    rfl

theorem header_sound (t : Trace) (laid : (t.blocks.map Prod.fst).Nodup) {i : Nat} {pc : Word}
    {head : Code} (header : t.blocks[i]? = some (pc, head)) (e : JitLive) :
    (¬ Late o signals t pc e →
      (passed (liveHost o signals undefinedShift) (i + 1)
        (passed (liveHost o signals undefinedShift) i e)).live.soundTimer = e.live.soundTimer) ∧
    (Late o signals t pc e →
      (passed (liveHost o signals undefinedShift) (i + 1)
        (passed (liveHost o signals undefinedShift) i e)).live.soundTimer.toNat =
          e.live.soundTimer.toNat - 1) := by
  obtain ⟨same, polls⟩ | ⟨same, quiet⟩ :=
    @passed_header JitLive (liveHost o signals undefinedShift) i e
  · rw [same]
    have sound := @checkInterrupt_sound o signals e
    constructor
    · intro onTime
      rw [if_neg fun both => onTime ⟨⟨i, head, header, polls⟩, both.1, both.2⟩] at sound
      exact BitVec.eq_of_toNat_eq sound
    · rintro ⟨-, pending, tick⟩
      rw [if_pos ⟨pending, tick⟩] at sound
      exact sound
  · rw [same]
    refine ⟨fun _ => rfl, ?_⟩
    rintro ⟨⟨j, code, there, polls⟩, -, -⟩
    obtain rfl := unique_index laid header there
    exact absurd polls quiet

end

end Jit

open Jit

/-- Spinning in the loop and waiting in `main` end alike, whatever either of them is told by the
host. Waiting on a back edge of a trace ends alike behind the header, but for a last tick where the
header looks for a signal. -/
theorem idle_elision {s : State Live} {x : Reg} (undefinedShift : Byte → BitVec 32)
    (loop : idleDelayLoop s.vm.memory s.vm.programCounter = some x)
    (calm : s.env.quitting = false) {o o' o'' : Outside} (unread' : o'.Calm)
    (unread'' : o''.Calm) :
    (∀ n t, LeavesLoop o undefinedShift n s t → Ended s x t) ∧
    (∀ k e, Run.after (idleLoop o') k s.env = some e → idleLoop o' e = none →
      idlePass o' x ⟨s.vm, e⟩ = ⟨.loop, ⟨leaveIdle x s.vm, e⟩⟩ ∧ Ended s x ⟨leaveIdle x s.vm, e⟩) ∧
    ∀ (backend : Backend) (signals : Signals) (vm : VM) (env : JitLive) (d : Dispatcher JitLive)
      (t : Trace) (a : Word) (code : Code) (f : Frame JitLive),
      Run.Reaches (Dispatcher.step (liveHost o'' signals undefinedShift) ⟨backend, false, true⟩)
        (start vm env) d →
      d.position = .running t a → t.block a = some code →
      Code.Comes (liveHost o'' signals undefinedShift) code ⟨d.machine, fun _ => 0#8⟩
        (.op (.call .idleWait) (.backedge s.vm.programCounter)) f →
      f.machine.vm = s.vm → f.machine.env.live = s.env → f.machine.env.programOver = false →
      (f.machine.env.idleWait o'' signals).givenUp = false →
      ∃ (d' : Dispatcher JitLive) (code' rest : Code) (g : Frame JitLive),
        Run.after (Dispatcher.step (liveHost o'' signals undefinedShift) ⟨backend, false, true⟩) 3
            d = some d' ∧
          d'.position = .running t (s.vm.programCounter + 2) ∧
          t.block (s.vm.programCounter + 2) = some code' ∧
          Code.Comes (liveHost o'' signals undefinedShift) code' ⟨d'.machine, fun _ => 0#8⟩ rest g ∧
          (¬ Late o'' signals t s.vm.programCounter (f.machine.env.idleWait o'' signals) →
            Ended s x ⟨g.machine.vm, g.machine.env.live⟩) ∧
          (Late o'' signals t s.vm.programCounter (f.machine.env.idleWait o'' signals) →
            g.machine.vm = leaveIdle x s.vm ∧ g.machine.env.live.delayTimer = 0#8 ∧
              g.machine.env.live.soundTimer.toNat =
                s.env.soundTimer.toNat - s.env.delayTimer.toNat - 1) := by
  have place := idleAt_of_recognised loop
  refine ⟨?_, ?_, ?_⟩
  · intro n t leaves
    exact leavesLoop_ended o undefinedShift place leaves
  · intro k e looped returns
    have expired := idleLoop_expired o' calm unread' looped returns
    constructor
    · unfold idlePass
      rw [returns]
    · exact ⟨rfl, expired, (idleLoop_counted o' looped).expired expired⟩
  · intro backend signals vm env d t a code f reached here found comes sameVm sameLive goesOn returns
    have coherent := reachable_coherent _ _ reached
    -- The wait runs the timer out, and does not end the program.
    obtain ⟨k, looped⟩ := @Run.finish_reaches Live (idleLoop o'') signals.passes
      f.machine.env.live
    have ended : idleLoop o'' (f.machine.env.idleWait o'' signals).live = none := by
      have none := (Bool.or_eq_false_iff.mp returns).2
      exact Option.isSome_eq_false_iff.mp none |> Option.isNone_iff_eq_none.mp
    have expired := idleLoop_expired o'' (sameLive ▸ calm) unread'' looped ended
    have sound : (f.machine.env.idleWait o'' signals).live.soundTimer.toNat =
        s.env.soundTimer.toNat - s.env.delayTimer.toNat := by
      rw [← sameLive]
      exact (idleLoop_counted o'' looped).expired expired
    have goesOn' : (f.machine.env.idleWait o'' signals).programOver = false := by
      unfold JitLive.idleWait
      dsimp only
      rw [goesOn, expired]
      rfl
    obtain ⟨d', i, head, code', rest, g, run, position, header, found', behind, vm', env'⟩ :=
      wait_leaves coherent here found comes (by rw [sameVm]; exact loop) rfl goesOn'
        expired
    obtain ⟨memory, origin⟩ := coherent.origin (.inl here)
    have delay : g.machine.env.live.delayTimer = 0#8 := by
      rw [env']
      exact passed_expired _ (passed_expired _ expired)
    obtain ⟨onTime, late⟩ := @header_sound o'' signals undefinedShift t origin.laid.distinct i _ head
      header (f.machine.env.idleWait o'' signals)
    rw [← env'] at onTime late
    rw [sameVm] at vm'
    refine ⟨d', code', rest, g, run, position, found', behind, fun calm => ⟨vm', delay, ?_⟩,
      fun more => ⟨vm', delay, ?_⟩⟩
    · exact (congrArg BitVec.toNat (onTime calm)).trans sound
    · rw [late more]
      exact congrArg (· - 1) sound

/-- A tick a service, and nothing pressed. -/
def steadyOutside : Outside := { quietOutside with ticks := fun k => k + 1 }

theorem steadyOutside_calm : steadyOutside.Calm := fun _ => BitVec.getLsbD_zero

def bareLoop : List Byte := [0xF1, 0x07, 0x31, 0x00, 0x12, 0x00, 0x12, 0x06]

/-- The loop at the entry point, passed once, with two ticks to wait and the sound timer at five. -/
def twoTicksLeft : State Live :=
  ⟨(VM.boot bareLoop).setReg 1#4 2#8, { Live.boot 0 with delayTimer := 2#8, soundTimer := 5#8 }⟩

/-- No signal comes in. -/
def noSignals : Signals := ⟨fun _ => false, 10⟩

theorem idle_elision_twoTicksLeft :
    (∃ e, Run.after (idleLoop steadyOutside) 2 twoTicksLeft.env = some e ∧
      Ended twoTicksLeft 1#4 ⟨leaveIdle 1#4 twoTicksLeft.vm, e⟩) ∧
    ∃ (d' : Dispatcher JitLive) (code' rest : Code) (g : Frame JitLive),
      Run.after (Dispatcher.step (liveHost steadyOutside noSignals fun _ => 0#32)
        ⟨.libgccjit, false, true⟩) 6 (start (VM.boot bareLoop) ⟨twoTicksLeft.env, false, 0, false⟩) =
          some d' ∧
      Code.Comes (liveHost steadyOutside noSignals fun _ => 0#32) code'
        ⟨d'.machine, fun _ => 0#8⟩ rest g ∧
      Ended twoTicksLeft 1#4 ⟨g.machine.vm, g.machine.env.live⟩ := by
  have elided := @idle_elision twoTicksLeft 1#4 (fun _ => 0#32) (by decide) (by decide)
    quietOutside steadyOutside steadyOutside steadyOutside_calm steadyOutside_calm
  constructor
  · exact ⟨_, rfl, (elided.2.1 2 _ rfl (by decide)).2⟩
  · have run : Run.after (Dispatcher.step (liveHost steadyOutside noSignals fun _ => 0#32)
        ⟨.libgccjit, false, true⟩) 3 (start (VM.boot bareLoop) ⟨twoTicksLeft.env, false, 0, false⟩) =
          some _ := rfl
    obtain ⟨d', code', rest, g, onwards, -, -, comes, onTime, -⟩ := elided.2.2 .libgccjit noSignals
      _ _ _ _ 0x202#16 _ _ ⟨3, run⟩ rfl rfl (.fallen rfl (.op rfl (.op rfl .here))) rfl rfl rfl rfl
    exact ⟨d', code', rest, g, Run.after_trans run onwards, comes, onTime fun late =>
      absurd late.pending Bool.false_ne_true⟩

/-- `LD V1, 5; LD DT, V1; LD V2, 9; LD ST, V2`, 28 times `LD V0, 0`, and the loop, which is
instruction 32 of the trace. -/
def longLoop : List Byte :=
  [0x61, 0x05, 0xF1, 0x15, 0x62, 0x09, 0xF2, 0x18] ++ (List.replicate 28 [0x60, 0x00]).flatten ++
    [0xF1, 0x07, 0x31, 0x00, 0x12, 0x40, 0x12, 0x46]

/-- A signal comes in at the third safepoint. -/
def thirdSignal : Signals := ⟨fun k => k == 2, 10⟩

/-- Five ticks are waited out, and the safepoint in the header counts a sixth. -/
theorem idle_elision_late : ∃ (d d' : Dispatcher JitLive) (t : Trace) (code code' rest : Code)
    (f g : Frame JitLive),
    Run.after (Dispatcher.step (liveHost steadyOutside thirdSignal fun _ => 0#32)
      ⟨.libgccjit, false, true⟩) 35 (start (VM.boot longLoop) (.boot 0)) = some d ∧
    d.position = .running t 0x242#16 ∧ t.block 0x242#16 = some code ∧
    Code.Comes (liveHost steadyOutside thirdSignal fun _ => 0#32) code ⟨d.machine, fun _ => 0#8⟩
      (.op (.call .idleWait) (.backedge 0x240#16)) f ∧
    idleDelayLoop f.machine.vm.memory 0x240#16 = some 1#4 ∧
    f.machine.env.live.delayTimer = 5#8 ∧ f.machine.env.live.soundTimer = 9#8 ∧
    f.machine.env.live.quitting = false ∧ f.machine.env.programOver = false ∧
    (f.machine.env.idleWait steadyOutside thirdSignal).givenUp = false ∧
    Run.after (Dispatcher.step (liveHost steadyOutside thirdSignal fun _ => 0#32)
      ⟨.libgccjit, false, true⟩) 3 d = some d' ∧
    t.block 0x242#16 = some code' ∧
    Code.Comes (liveHost steadyOutside thirdSignal fun _ => 0#32) code' ⟨d'.machine, fun _ => 0#8⟩
      rest g ∧
    g.machine.vm.programCounter = 0x246#16 ∧ g.machine.env.live.soundTimer = 3#8 :=
  ⟨_, _, _, _, _, _, _, _, rfl, rfl, rfl, .fallen rfl (.op rfl (.op rfl .here)), rfl, rfl, rfl, rfl,
    rfl, rfl, rfl, rfl, .taken rfl (.op rfl .here), rfl, rfl⟩

end ChipEight
