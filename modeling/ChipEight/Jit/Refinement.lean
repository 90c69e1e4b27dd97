import ChipEight.Jit.Tracking

/-! The benchmark JITs refine the interpreter.

A block stands for one step of the interpreter, or for two where it ends in the
jump fused behind a skip. Lifted over the dispatcher this makes every run of a JIT
a run of the interpreter with the same retired count, as long as `bench_tick` does
not overflow; that it does is shown at the end.
-/

set_option autoImplicit false

namespace ChipEight

theorem isSkip_of_decode {op : Word} {c : SkipCond} (decoded : decode op = some (.skip c)) :
    Jit.isSkip op = true := by
  unfold decode decodeF at decoded
  unfold Jit.isSkip
  split at decoded
  · cases decoded
  split at decoded
  · cases decoded
  split at decoded
  case h_9 =>
    obtain ⟨o, -, same⟩ := Option.map_eq_some_iff.mp decoded
    cases same
  case h_15 => split at decoded <;> cases decoded
  case h_16 => split at decoded <;> cases decoded
  all_goals cases decoded
  all_goals simp_all

theorem decode_fused {op : Word} (jump : opClass op = 0x1) :
    decode op = some (.jp (immediate12 op)) := by
  have noClear : op ≠ 0x00e0#16 := by
    rintro rfl
    exact absurd jump (by decide)
  have noReturn : op ≠ 0x00ee#16 := by
    rintro rfl
    exact absurd jump (by decide)
  simp only [decode, jump, beq_eq_false_iff_ne.mpr noClear, beq_eq_false_iff_ne.mpr noReturn,
    Bool.false_eq_true, if_false]

namespace Jit

section
variable {rng : Nat → BitVec 32} {undefinedShift : Byte → BitVec 32}
variable {b : Build} {memory : Memory} {pcBlock : List Word} {pc fusedOp op : Word}
variable {f : Frame Bench} {s : State Bench}

/-! ## Skips -/

theorem skipCond_run (c : SkipCond) (taken fallen : Code) (f : Frame Bench) {P : Host Bench} :
    ∃ g : Frame Bench, g.machine = f.machine ∧
      (seq (emitSkipCond b c).2.1 (.cond (emitSkipCond b c).1 (emitSkipCond b c).2.2.1
        (emitSkipCond b c).2.2.2 taken fallen)).run P f =
      if c.holds f.machine.vm then taken.run P g else fallen.run P g := by
  obtain ⟨backend, bench, elideIdle⟩ := b
  cases backend with
  | libgccjit => exact ⟨f, rfl, by cases c <;> rfl⟩
  | llvm =>
    let loaded (n : Nat) (x : Reg) (g : Frame Bench) : Frame Bench :=
      { g with slots := Function.update g.slots n (g.machine.vm.regs x) }
    cases c with
    | eqImm x kk | neImm x kk => exact ⟨loaded 0 x f, rfl, rfl⟩
    | eqReg x y | neReg x y => exact ⟨loaded 1 y (loaded 0 x f), rfl, rfl⟩

theorem jump_step {s : State Bench} {nnn : Addr} {e : Bench}
    (decoded : decode (opcodeAt s.vm.memory s.vm.programCounter) = some (.jp nnn))
    (agree : (e.retire 1).Agree (benchEnter s).env) (range : (e.retire 1).InRange) :
    ∃ s', benchStep rng undefinedShift s = some s' ∧ s'.vm = s.vm.setPc (nnn.setWidth 16) ∧
      (e.retire 1).safepoint.Agree s'.env := by
  refine ⟨⟨s.vm.setPc (nnn.setWidth 16), (benchEnter s).env.syncTimers⟩, ?_, rfl,
    agree.jump range⟩
  rw [benchStep_eq_some, basicBlock_eq]
  simp only [benchEnter] at decoded ⊢
  rw [decoded]
  rfl

/-- The edge of a skip not taken: one step, or two with the jump behind it. -/
theorem fallen_tracks (bench : b.bench = true) {g : Frame Bench} {t : State Bench}
    (vm : t.vm = g.machine.vm.setPc (pc + 2)) (agree : g.machine.env.Agree t.env)
    (fused : opcodeAt g.machine.vm.memory (pc + 2) = fusedOp)
    {m : Machine Bench} {exit : Exit} (range : m.env.InRange)
    (ran : (b.emitFallen (b.idleWait memory) pcBlock pc fusedOp).run
      (benchHost rng undefinedShift) g = some (m, exit)) :
    ∃ n t', Run.after (benchStep rng undefinedShift) n t = some t' ∧ Lands m exit t' := by
  have later := Code.run_keeps (benchHost_keeps rng undefinedShift) ran
  unfold Build.emitFallen at ran
  simp only [idleWait_bench bench, Build.retire, bench, if_true] at ran
  by_cases jump : opClass fusedOp = 0x1
  · rw [if_pos jump] at ran
    have here : opcodeAt t.vm.memory t.vm.programCounter = fusedOp := by
      rw [vm]
      exact fused
    have entered : (g.machine.env.retire 1).Agree (benchEnter t).env :=
      (agree.symm.keysNow.2).symm.charge 1 0
    have retired : m.env = (g.machine.env.retire 1).safepoint := by
      split at ran <;> cases ran <;> rfl
    obtain ⟨t', next, moved, agree'⟩ := @jump_step rng undefinedShift t (immediate12 fusedOp)
      g.machine.env (by rw [here]; exact decode_fused jump) entered
      (range.earlier (retired ▸ Bench.now_safepoint _))
    refine ⟨1, t', next, ?_⟩
    rw [vm] at moved
    split at ran
    · cases ran
      exact lands_backedge moved rfl agree'
    · cases ran
      exact lands_ret moved agree'
  · rw [if_neg jump] at ran
    cases ran
    exact ⟨0, t, rfl, lands_ret vm agree⟩

theorem skip_tracks (bench : b.bench = true) (tracks : Tracks f pc s) {c : SkipCond}
    (fused : opcodeAt f.machine.vm.memory (pc + 2) = fusedOp) {rest : Code}
    {m : Machine Bench} {exit : Exit} (range : m.env.InRange)
    (ran : (seq (emitSkipCond b c).2.1 (.cond (emitSkipCond b c).1 (emitSkipCond b c).2.2.1
        (emitSkipCond b c).2.2.2 (seq [.setPc (.const (pc + 4))] rest)
        (b.emitFallen (b.idleWait memory) pcBlock pc fusedOp))).run
      (benchHost rng undefinedShift) f = some (m, exit)) :
    ∃ s', Insn.exec (benchPlatform rng undefinedShift) op (.skip c) s = (0#32, s') ∧
      ((∃ f', rest.run (benchHost rng undefinedShift) f' = some (m, exit) ∧
          Tracks f' (pc + 4) s') ∨
        ∃ n t, Run.after (benchStep rng undefinedShift) n s' = some t ∧ Lands m exit t) := by
  obtain ⟨vm, env⟩ := s
  obtain ⟨same, agree⟩ := tracks
  obtain rfl : vm = f.machine.vm.setPc pc := same
  obtain ⟨g, machine, decided⟩ := @skipCond_run b c (seq [.setPc (.const (pc + 4))] rest)
    (b.emitFallen (b.idleWait memory) pcBlock pc fusedOp) f (benchHost rng undefinedShift)
  rw [decided] at ran
  have holds : c.holds (f.machine.vm.setPc pc) = c.holds f.machine.vm := by cases c <;> rfl
  have decides : Insn.exec (benchPlatform rng undefinedShift) op (.skip c)
      ⟨f.machine.vm.setPc pc, env⟩ =
      Interpreter.skipIf (c.holds f.machine.vm) ⟨f.machine.vm.setPc pc, env⟩ :=
    congrArg (fun h => Interpreter.skipIf h ⟨f.machine.vm.setPc pc, env⟩) holds
  rw [decides]
  -- The taken edge goes on in the trace; the other one leaves it, or folds a jump in.
  cases taken : c.holds f.machine.vm with
  | true =>
    rw [taken, if_pos rfl] at ran
    refine ⟨_, rfl, .inl ⟨_, ran, ?_, ?_⟩⟩
    · have twice : pc + 2 + 2 = pc + 4 := by rw [BitVec.add_assoc]; rfl
      simp only [Frame.mapVM, Machine.mapVM, machine, Frame.value, Value.eval]
      exact congrArg f.machine.vm.setPc twice
    · exact machine ▸ agree
  | false =>
    rw [taken, if_neg Bool.false_ne_true] at ran
    refine ⟨_, rfl, .inr (fallen_tracks bench ?_ ?_ ?_ range ran)⟩
    · rw [machine]
      rfl
    · exact machine ▸ agree
    · rw [machine]
      exact fused

/-! ## Blocks -/

theorem closeLoop_tracks (bench : b.bench = true) (tracks : Tracks f pc s)
    {m : Machine Bench} {exit : Exit} (range : f.machine.env.InRange)
    (ran : (closeLoop b memory pc).run (benchHost rng undefinedShift) f = some (m, exit)) :
    Lands m exit s := by
  unfold closeLoop at ran
  rw [idleWait_bench bench] at ran
  cases ran
  exact lands_backedge tracks.vm rfl (tracks.env.safepoint range)

theorem block_tracks (bench : b.bench = true) {code : Code} (block : BlockOf b memory pc code)
    (agrees : ∀ byte v, (byte, v) ∈ passReads memory pc →
      f.machine.vm.memory byte = memory byte)
    (tracks : Tracks f pc s) {m : Machine Bench} {exit : Exit} (range : m.env.InRange)
    (ran : code.run (benchHost rng undefinedShift) f = some (m, exit)) :
    ∃ n t, Run.after (benchStep rng undefinedShift) n s = some t ∧ Lands m exit t := by
  have keeps := benchHost_keeps rng undefinedShift
  have here : opcodeAt f.machine.vm.memory pc = opcodeAt memory pc :=
    opcodeAt_congr fun byte v read => agrees byte v (List.mem_append_left _ read)
  -- A successful instruction of the interpreter is a step of its main loop.
  have stepped : ∀ {i : Insn} {s' : State Bench}, decode (opcodeAt memory pc) = some i →
      i.exec (benchPlatform rng undefinedShift) (opcodeAt memory pc) (benchEnter s) =
        (0#32, s') → benchStep rng undefinedShift s = some s' := by
    intro i s' decoded executed
    have fetched : opcodeAt (benchEnter s).vm.memory (benchEnter s).vm.programCounter =
        opcodeAt memory pc := by
      rw [← here]
      show opcodeAt s.vm.memory s.vm.programCounter = _
      rw [tracks.vm]
      rfl
    rw [benchStep_eq_some, basicBlock_eq, fetched, decoded]
    exact executed
  cases block with
  | @stop pcBlock opCount i body decoded emitted =>
    rw [seq_run] at ran
    obtain ⟨f', entered, inner⟩ := Option.bind_eq_some_iff.mp ran
    have range' := range.earlier (Code.run_keeps keeps inner)
    obtain ⟨tracks', same⟩ := prologue_tracks bench tracks entered range'
    obtain ⟨s', executed, lands⟩ :=
      stop_tracks bench tracks' (same ▸ here) decoded range' emitted inner
    exact ⟨1, s', stepped decoded executed, lands⟩
  | @next pcBlock opCount i pc' body rest decoded emitted closing =>
    rw [seq_run] at ran
    obtain ⟨f', entered, inner⟩ := Option.bind_eq_some_iff.mp ran
    have range' := range.earlier (Code.run_keeps keeps inner)
    obtain ⟨tracks', same⟩ := prologue_tracks bench tracks entered range'
    -- What the interpreter has done when control goes on to the rest of the trace.
    have going : ∀ {g : Frame Bench} {s' : State Bench}, Tracks g pc' s' →
        rest.run (benchHost rng undefinedShift) g = some (m, exit) → Lands m exit s' := by
      intro g s' tracked ranRest
      rcases closing with rfl | rfl
      · cases ranRest
        exact ⟨tracked.vm, fun _ closed => (nomatch closed), tracked.env⟩
      · exact closeLoop_tracks bench tracked
          (range.earlier (Code.run_keeps keeps ranRest)) ranRest
    by_cases skip : ∃ c, i = .skip c
    · obtain ⟨c, rfl⟩ := skip
      cases emitted
      have fused : opcodeAt f'.machine.vm.memory (pc + 2) = opcodeAt memory (pc + 2) := by
        rw [same]
        refine opcodeAt_congr fun byte v read => agrees byte v (List.mem_append_right _ ?_)
        rw [if_pos (isSkip_of_decode decoded)]
        exact read
      obtain ⟨s', executed, ⟨g, ranRest, tracked⟩ | ⟨n, t, further, lands⟩⟩ :=
        @skip_tracks rng undefinedShift b memory _ pc _ (opcodeAt memory pc) f' (benchEnter s)
          bench tracks' c fused rest m exit range inner
      · exact ⟨1, s', stepped decoded executed, going tracked ranRest⟩
      · exact ⟨1 + n, t, Run.after_trans (stepped decoded executed) further, lands⟩
    · obtain ⟨g, ranRest, s', executed, tracked⟩ := next_tracks bench tracks' (same ▸ here)
        decoded (fun c same => skip ⟨c, same⟩) range' emitted inner
      exact ⟨1, s', stepped decoded executed, going tracked ranRest⟩

/-! ## Runs of the dispatcher -/

/-- The interpreter is where the dispatcher is. -/
def InStep (d : Dispatcher Bench) (s : State Bench) : Prop :=
  match d.position with
  | .running _ pc => Tracks ⟨d.machine, fun _ => 0#8⟩ pc s
  | .backedge _ pc => Lands d.machine (.backedge pc) s
  | .stopped .errer => True
  | _ => Lands d.machine .ret s

theorem leave_inStep {d : Dispatcher Bench} {t : Trace} {m : Machine Bench} {exit : Exit}
    {s : State Bench} (lands : Lands m exit s) :
    InStep { d with machine := m, position := Dispatcher.leave t exit } s := by
  cases exit with
  | goto pc => exact ⟨lands.vm, lands.env⟩
  | backedge pc => exact lands
  | ret => exact lands

theorem service_inStep {d : Dispatcher Bench} {s : State Bench} (lands : Lands d.machine .ret s)
    (range : d.machine.env.InRange) : InStep (d.service (benchHost rng undefinedShift)) s := by
  have checked := (lands.env.checkInterrupt range).keysNow.2
  have served : Lands (d.service (benchHost rng undefinedShift)).machine .ret s := by
    refine lands_ret (lands.vm.trans (service_vm _ d).symm) ?_
    cases pending : d.machine.smcPending with
    | true =>
      simp only [Dispatcher.service, Machine.mapEnv, pending, if_true]
      split <;> exact checked
    | false =>
      simp only [Dispatcher.service, Machine.mapEnv, pending, Bool.false_eq_true, if_false]
      split <;> exact checked
  unfold InStep
  rcases service_position (benchHost rng undefinedShift) d with at_ | at_ <;> rw [at_] <;>
    exact served

theorem step_inStep (bench : b.bench = true) {d d' : Dispatcher Bench} {s : State Bench}
    (coherent : Coherent b d) (inStep : InStep d s)
    (next : Dispatcher.step (benchHost rng undefinedShift) b d = some d')
    (range : d'.machine.env.InRange) :
    ∃ n t, Run.after (benchStep rng undefinedShift) n s = some t ∧ InStep d' t := by
  have before := range.earlier (step_keeps (benchHost_keeps rng undefinedShift) next)
  unfold Dispatcher.step at next
  unfold InStep at inStep
  cases here : d.position with
  | top =>
    rw [here] at next inStep
    dsimp only at next inStep
    split at next
    · cases next
      refine ⟨0, s, rfl, ?_⟩
      rcases compile_cases b d with ⟨rest, blocks, -, same⟩ | ⟨-, same⟩
      · rw [same, InStep]
        dsimp only
        rw [here]
        exact lands_ret inStep.vm inStep.env
      · rw [same]
        exact lands_ret inStep.vm inStep.env
    · rename_i t hit
      cases next
      refine ⟨0, s, rfl, ?_, inStep.env⟩
      rw [(coherent.traced _ t hit).1, inStep.vm]
      rfl
  | running t pc =>
    rw [here] at next inStep
    obtain ⟨code, found, rest⟩ := Option.bind_eq_some_iff.mp next
    -- Coherence: the bytes the block was compiled from are those of the machine.
    obtain ⟨memory, block, agrees⟩ := coherent.block b here found
    cases ran : code.run (benchHost rng undefinedShift) ⟨d.machine, fun _ => 0#8⟩ with
    | none =>
      rw [ran] at rest
      cases rest
      exact ⟨0, s, rfl, trivial⟩
    | some out =>
      rw [ran] at rest
      cases rest
      obtain ⟨n, s', further, lands⟩ := block_tracks bench block agrees inStep range ran
      exact ⟨n, s', further, leave_inStep lands⟩
  | backedge t pc =>
    rw [here] at next inStep
    dsimp only at next inStep
    split at next
    · cases next
      exact ⟨0, s, rfl, lands_ret inStep.vm inStep.env⟩
    · cases next
      refine ⟨0, s, rfl, ?_, inStep.env⟩
      rw [inStep.vm, ← inStep.backedge pc rfl]
      rfl
  | returned =>
    rw [here] at next inStep
    cases next
    exact ⟨0, s, rfl, service_inStep inStep before⟩
  | stopped why => rw [here] at next; cases next

theorem refinement (bench : b.bench = true) :
    Run.Simulation (Dispatcher.step (benchHost rng undefinedShift) b)
      (benchStep rng undefinedShift) (fun d => d.machine.env.InRange)
      (fun d s => Coherent b d ∧ InStep d s) where
  backwards d d' next range :=
    range.earlier (step_keeps (benchHost_keeps rng undefinedShift) next)
  simulate d d' s related next range := by
    obtain ⟨coherent, inStep⟩ := related
    obtain ⟨n, t, further, inStep'⟩ := step_inStep bench coherent inStep next range
    exact ⟨n, t, further, step_coherent _ b coherent next, inStep'⟩

end

/-! ## The claim of the benchmark -/

section
variable (rng : Nat → BitVec 32) (undefinedShift : Byte → BitVec 32)

/-- The host at power-on, with the timers the machine is started with. -/
def powerOn (budget clockCap : Int) (keyMode : KeyMode) (delay sound : Byte) : Bench :=
  { Bench.initial budget clockCap keyMode with delayTimer := delay, soundTimer := sound }

/-- The interpreter, after as many instructions as the JIT has retired, agrees with it on
the machine, the random source, the polls and the timers brought up to date. -/
def SameRun (vm : VM) (env : Bench) (d : Dispatcher Bench) : Prop :=
  ∃ s, benchRun rng undefinedShift d.machine.env.retired ⟨vm, env⟩ = some s ∧
    s.vm = d.machine.vm ∧
    s.env.randPos = d.machine.env.randPos ∧
    s.env.pollClock = d.machine.env.pollClock ∧
    s.env.syncTimers.delayTimer = d.machine.env.syncTimers.delayTimer ∧
    s.env.syncTimers.soundTimer = d.machine.env.syncTimers.soundTimer

theorem sameRun_of_lands {vm : VM} {env : Bench} (fresh : env.retired = 0)
    {d : Dispatcher Bench} (range : d.machine.env.InRange) {n : Nat} {s : State Bench}
    (run : Run.after (benchStep rng undefinedShift) n ⟨vm, env⟩ = some s)
    (same : s.vm = d.machine.vm) (agree : d.machine.env.Agree s.env) :
    SameRun rng undefinedShift vm env d := by
  have count : s.env.retired = n := by
    rw [benchRun_retired rng undefinedShift run]
    simp [fresh]
  have retired : d.machine.env.retired = s.env.retired := congrArg Clock.retired agree.clock
  obtain ⟨delay, sound⟩ := agree.timers range
  refine ⟨s, ?_, same, congrArg Clock.randPos agree.clock.symm,
    congrArg Clock.pollClock agree.clock.symm, delay.symm, sound.symm⟩
  rw [retired, count]
  exact run

/-- In every run of a benchmark JIT, at every trace exit and closed back edge where the
tick has not overflowed the `int` of `bench_tick`, the interpreter agrees. -/
theorem jit_refines_interpreter (b : Build) (bench : b.bench = true) (vm : VM)
    (budget clockCap : Int) (keyMode : KeyMode) (delay sound : Byte) {n : Nat}
    {d : Dispatcher Bench}
    (run : Run.after (Dispatcher.step (benchHost rng undefinedShift) b) n
      (start vm (powerOn budget clockCap keyMode delay sound)) = some d)
    (exit : d.position = .returned ∨ ∃ t pc, d.position = .backedge t pc)
    (range : d.machine.env.now / Bench.instrPerTick < 2 ^ 31) :
    SameRun rng undefinedShift vm (powerOn budget clockCap keyMode delay sound) d := by
  have serviced : (powerOn budget clockCap keyMode delay sound).Serviced := by
    constructor <;> simp [powerOn, Bench.initial, Bench.longTick, Bench.now]
  have started : InStep (start vm (powerOn budget clockCap keyMode delay sound))
      ⟨vm, powerOn budget clockCap keyMode delay sound⟩ := lands_ret rfl (.refl serviced)
  obtain ⟨k, s, reached, -, inStep⟩ :=
    (refinement bench).run ⟨start_coherent b vm _, started⟩ run range
  unfold InStep at inStep
  rcases exit with at_ | ⟨t, pc, at_⟩
  · rw [at_] at inStep
    exact sameRun_of_lands rng undefinedShift rfl range reached inStep.vm inStep.env
  · rw [at_] at inStep
    exact sameRun_of_lands rng undefinedShift rfl range reached inStep.vm inStep.env

end

/-- `LD V0, 5; LD DT, V0; SE V0, 1; JP 0x202; JP 0x208`. -/
def loopsOnTimer : List Byte := [0x60, 0x05, 0xf0, 0x15, 0x30, 0x01, 0x12, 0x02, 0x12, 0x08]

/-- In that program the fifth step closes the loop along the fused jump. -/
theorem jit_refines_interpreter_loopsOnTimer :
    ∃ d, Run.after (Dispatcher.step quietHost ⟨.llvm, true, false⟩) 5
        (start (VM.boot loopsOnTimer) (powerOn 100 6400 .rotate 0#8 0#8)) = some d ∧
      (d.position = .returned ∨ ∃ t pc, d.position = .backedge t pc) ∧
      SameRun (fun _ => 0#32) (fun _ => 0#32) (VM.boot loopsOnTimer)
        (powerOn 100 6400 .rotate 0#8 0#8) d := by
  have run : Run.after (Dispatcher.step quietHost ⟨.llvm, true, false⟩) 5
      (start (VM.boot loopsOnTimer) (powerOn 100 6400 .rotate 0#8 0#8)) = some _ := rfl
  exact ⟨_, run, .inr ⟨_, 0x202#16, rfl⟩, jit_refines_interpreter (fun _ => 0#32) (fun _ => 0#32)
    ⟨.llvm, true, false⟩ rfl (VM.boot loopsOnTimer) 100 6400 .rotate 0#8 0#8 run
    (.inr ⟨_, 0x202#16, rfl⟩) (by decide +kernel)⟩

/-! ## The overflow of the tick

A program that sets a timer and then spins through `Bnnn` never has the interpreter
service its timers, while the dispatcher does so after every trace. Both would
agree for ever if the tick did not turn negative.
-/

/-- `LD V1, 0xff; LD DT, V1; JP V0, 0x204`. -/
def spinRom : List Byte := [0x61, 0xff, 0xf1, 0x15, 0xb2, 0x04]

def spinVM : VM := ((VM.boot spinRom).setReg 1#4 0xff#8).setPc 0x204#16

def spinEnv : Bench := powerOn 0x4000000000000 0x100000000000000 .none 0#8 0#8

theorem spin_benchStep (e : Bench) :
    benchStep (fun _ => 0#32) (fun _ => 0#32) ⟨spinVM, e⟩ =
      some ⟨spinVM, (e.rollTick e.longTick).retire 1⟩ := by
  have decoded : decode (opcodeAt spinVM.memory spinVM.programCounter) =
    some (.jpV0 0x204#12) := by decide
  rw [benchStep_eq_some, basicBlock_eq]
  simp only [benchEnter, decoded, Bench.keysNow_snd]
  rfl

theorem spin_benchRun (n : Nat) :
    ∃ e, benchRun (fun _ => 0#32) (fun _ => 0#32) (n + 3) ⟨VM.boot spinRom, spinEnv⟩ =
        some ⟨spinVM, e⟩ ∧
      e.delayTimer = 0xff#8 ∧ e.lastTick = 0 ∧ e.retired = n + 3 ∧ e.pollClock = 0 := by
  induction n with
  | zero => exact ⟨_, rfl, rfl, rfl, rfl, rfl⟩
  | succ n ih =>
    obtain ⟨e, run, delay, last, retired, polled⟩ := ih
    refine ⟨(e.rollTick e.longTick).retire 1, ?_, ?_⟩
    · rw [benchRun, show n + 1 + 3 = n + 3 + 1 by omega, Run.after_succ]
      exact ⟨_, run, spin_benchStep e⟩
    · rw [Bench.rollTick_eq]
      exact ⟨delay, last, congrArg (· + 1) retired, polled⟩

/-- The counters of the dispatcher at the top of its loop, `r` instructions into the run. -/
structure SpinEnv (e : Bench) (r : Nat) : Prop where
  retired : e.retired = r
  pollClock : e.pollClock = 0
  budget : e.budget = 0x4000000000000
  clockCap : e.clockCap = 0x100000000000000
  running : e.programOver = false
  lastTick : e.lastTick = (r / 2000 : Nat)
  delay : e.delayTimer = Bench.catchUp 0xff#8 (r / 2000 : Nat)

def spinCode : Code :=
  seq [.retire 1] (seq [.setPc (.bin .add (.const 0x204#16) (.zext (.reg 0#4)))] .ret)

structure Spinning (d : Dispatcher Bench) (r : Nat) : Prop where
  top : d.position = .top
  vm : d.machine.vm = spinVM
  clear : d.machine.smcPending = false
  cached : ∃ t, d.cache 0x204#16 = some t ∧ t.start = 0x204#16 ∧ t.block 0x204#16 = some spinCode
  env : SpinEnv d.machine.env r

theorem spinCode_run {m : Machine Bench} (vm : m.vm = spinVM) :
    spinCode.run quietHost ⟨m, fun _ => 0#8⟩ = some (m.mapEnv (Bench.retire 1), .ret) := by
  obtain ⟨vm', env, code, pending⟩ := m
  subst vm
  rfl

def spinBuild : Build := ⟨.libgccjit, true, false⟩

theorem SpinEnv.done {e : Bench} {r : Nat} (spin : SpinEnv e r) (low : r < 0x4000000000000) :
    e.done = false := by
  simp only [Bench.done, Bench.now, spin.retired, spin.pollClock, spin.budget, spin.clockCap,
    Bool.or_eq_false_iff, decide_eq_false_iff_not]
  omega

theorem SpinEnv.service {e : Bench} {r : Nat} (spin : SpinEnv e r)
    (low : r + 1 < 4294967296000) : SpinEnv (e.retire 1).checkInterrupt.keysNow.2 (r + 1) := by
  have tick : (e.retire 1).longTick = (r + 1) / 2000 := by
    simp only [Bench.longTick, Bench.now, Bench.retire, spin.retired, spin.pollClock]
    rfl
  have range : (e.retire 1).InRange := by
    rw [Bench.InRange, tick]
    omega
  have last : (e.retire 1).lastTick = (r / 2000 : Nat) := spin.lastTick
  have serviced : SpinEnv (e.retire 1).syncTimers (r + 1) := by
    unfold Bench.syncTimers
    rw [Bench.tick_inRange range, tick, last]
    dsimp only
    split
    · refine ⟨congrArg (· + 1) spin.retired, spin.pollClock, spin.budget, spin.clockCap,
        spin.running, rfl, ?_⟩
      dsimp only
      rw [show (e.retire 1).delayTimer = e.delayTimer from rfl, spin.delay,
        Bench.catchUp_add _ (by omega) (by omega)]
      congr 1
      omega
    · have same : (r + 1) / 2000 = r / 2000 := by omega
      refine ⟨congrArg (· + 1) spin.retired, spin.pollClock, spin.budget, spin.clockCap,
        spin.running, ?_, ?_⟩
      · rw [same]
        exact spin.lastTick
      · rw [same]
        exact spin.delay
  have checked : (e.retire 1).checkInterrupt = (e.retire 1).syncTimers := by
    unfold Bench.checkInterrupt
    dsimp only
    rw [serviced.done (by omega)]
    rfl
  rw [checked, Bench.keysNow_snd, Bench.rollTick_eq]
  exact ⟨serviced.retired, serviced.pollClock, serviced.budget, serviced.clockCap,
    serviced.running, serviced.lastTick, serviced.delay⟩

theorem Spinning.returns {d : Dispatcher Bench} {r : Nat} (spin : Spinning d r) :
    ∃ d', Run.after (Dispatcher.step quietHost spinBuild) 2 d = some d' ∧
      d'.position = .returned ∧ d'.machine = d.machine.mapEnv (Bench.retire 1) ∧
      d'.cache = d.cache := by
  obtain ⟨t, hit, at_, block⟩ := spin.cached
  have called : Dispatcher.step quietHost spinBuild d =
      some { d with position := .running t 0x204#16 } := by
    simp only [Dispatcher.step, spin.top, spin.vm]
    rw [show spinVM.programCounter = 0x204#16 from rfl, hit]
    simp only [at_]
  have ran : spinCode.run quietHost ⟨d.machine, fun _ => 0#8⟩ =
      some (d.machine.mapEnv (Bench.retire 1), .ret) := spinCode_run spin.vm
  refine ⟨{ d with machine := d.machine.mapEnv (Bench.retire 1), position := .returned }, ?_,
    rfl, rfl, rfl⟩
  rw [Run.after_succ]
  refine ⟨{ d with position := .running t 0x204#16 }, called, ?_⟩
  simp only [Dispatcher.step, block, Option.bind_eq_bind, Option.bind_some, ran]
  rfl

theorem Spinning.again {d : Dispatcher Bench} {r : Nat} (spin : Spinning d r)
    (low : r + 1 < 4294967296000) :
    ∃ d', Run.after (Dispatcher.step quietHost spinBuild) 3 d = some d' ∧ Spinning d' (r + 1) := by
  obtain ⟨d', returned, here, machine, cache⟩ := spin.returns
  have env : SpinEnv (d'.machine.env.checkInterrupt.keysNow.2) (r + 1) := by
    rw [machine]
    exact spin.env.service low
  have clear : d'.machine.smcPending = false := by
    rw [machine]
    exact spin.clear
  have goes : d'.service quietHost = { d' with
      machine := { d'.machine with env := d'.machine.env.checkInterrupt.keysNow.2 }
      position := .top
      traceCount := d'.traceCount + 1 } := by
    have noQuit : (d'.machine.env.checkInterrupt.keysNow.1 &&& quitBit != 0#32 ||
        d'.machine.env.checkInterrupt.keysNow.2.programOver) = false := by
      rw [keysNow_quit, env.running]
      rfl
    simp only [Dispatcher.service, Machine.mapEnv, clear, Bool.false_eq_true, if_false]
    exact if_neg (by rw [Bool.not_eq_true]; exact noQuit)
  refine ⟨d'.service quietHost, Run.after_succ.mpr ⟨d', returned, ?_⟩, ?_⟩
  · simp only [Dispatcher.step, here]
  · rw [goes]
    refine ⟨rfl, ?_, clear, ?_, env⟩
    · rw [machine]
      exact spin.vm
    · rw [cache]
      exact spin.cached

theorem spin_dispatcher (n : Nat) (low : n + 3 < 4294967296000) :
    ∃ k d, Run.after (Dispatcher.step quietHost spinBuild) k (start (VM.boot spinRom) spinEnv) =
      some d ∧ Spinning d (n + 3) := by
  induction n with
  | zero =>
    exact ⟨7, _, rfl, rfl, rfl, rfl, ⟨_, rfl, rfl, rfl⟩, rfl, rfl, rfl, rfl, rfl, rfl, rfl⟩
  | succ n ih =>
    obtain ⟨k, d, run, spin⟩ := ih (by omega)
    obtain ⟨d', further, spin'⟩ := spin.again (by omega)
    exact ⟨k + 3, d', Run.after_trans run further, by rw [show n + 1 + 3 = n + 3 + 1 by omega]; exact spin'⟩

theorem syncTimers_overflow {e : Bench} (at_ : e.now = 4294967296000) (before : 0 ≤ e.lastTick) :
    e.syncTimers = e := by
  have tick : e.tick = -2147483648 := by
    rw [Bench.tick, Bench.longTick, at_]
    rfl
  unfold Bench.syncTimers
  rw [tick]
  exact if_neg (by omega)

/-- At `2000 * 2 ^ 31` instructions the timer reads 0 in the JIT and 255 in the interpreter. -/
theorem jit_diverges_at_overflow :
    ¬ ∀ n d, Run.after (Dispatcher.step quietHost spinBuild) n (start (VM.boot spinRom) spinEnv) =
        some d →
      (d.position = .returned ∨ ∃ t pc, d.position = .backedge t pc) →
      d.machine.env.done = false →
      SameRun (fun _ => 0#32) (fun _ => 0#32) (VM.boot spinRom) spinEnv d := by
  intro refines
  obtain ⟨last, isLast⟩ : ∃ last, last + 4 = 4294967296000 := ⟨4294967295996, rfl⟩
  obtain ⟨k, d, run, spin⟩ := spin_dispatcher last (by omega)
  obtain ⟨d', returned, here, machine, -⟩ := spin.returns
  have env : d'.machine.env = d.machine.env.retire 1 := by rw [machine]; rfl
  have retired : d'.machine.env.retired = last + 4 := by
    rw [env]
    exact congrArg (· + 1) spin.env.retired
  have polled : d'.machine.env.pollClock = 0 := by
    rw [env]
    exact spin.env.pollClock
  have running : d'.machine.env.done = false := by
    simp only [Bench.done, Bench.now, retired, polled, Bool.or_eq_false_iff,
      decide_eq_false_iff_not]
    rw [env]
    simp only [Bench.retire, spin.env.budget, spin.env.clockCap]
    omega
  obtain ⟨s, sameRun, -, -, -, delay, -⟩ :=
    refines _ d' (Run.after_trans run returned) (.inl here) running
  obtain ⟨e, interpreted, set, never, count, still⟩ := spin_benchRun (last + 1)
  rw [retired, show last + 4 = last + 1 + 3 by omega, interpreted, Option.some.injEq] at sameRun
  subst sameRun
  rw [syncTimers_overflow (by rw [Bench.now, count, still]; omega) (by rw [never]), set,
    syncTimers_overflow (by rw [Bench.now, retired, polled]; omega)
      (by rw [env]; simp only [Bench.retire, spin.env.lastTick]; omega)] at delay
  have elapsed : d'.machine.env.delayTimer.toNat = 0 := by
    rw [env]
    simp only [Bench.retire, spin.env.delay, Bench.catchUp_toNat, BitVec.toNat_ofNat]
    omega
  rw [← delay] at elapsed
  exact absurd elapsed (by decide)

end Jit

end ChipEight
