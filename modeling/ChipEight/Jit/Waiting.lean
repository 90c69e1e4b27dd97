import ChipEight.Jit.Overshoot
import ChipEight.Machine.Rerun

/-! Key waits in a run of a benchmark JIT.

`Fx0A` is the last instruction of its trace. A wait that is cut short, because the budget
was spent meanwhile, is therefore the last instruction of the whole run: the end is noticed
as the trace returns.
-/

set_option autoImplicit false

namespace ChipEight.Jit

section
variable {rng : Nat → BitVec 32} {undefinedShift : Byte → BitVec 32}
variable {b : Build} {memory : Memory} {pc : Word}

/-! ## One block -/

theorem block_waits {code : Code} (block : BlockOf b memory pc code) {x : Reg}
    (decoded : decode (opcodeAt memory pc) = some (.ldKey x)) {f : Frame Bench} {m : Machine Bench}
    {exit : Exit} (ran : code.run (benchHost rng undefinedShift) f = some (m, exit)) :
    exit = .ret := by
  cases block with
  | stop decoded' emitted =>
    cases decoded.symm.trans decoded'
    cases emitted
    rw [seq_run] at ran
    obtain ⟨f', -, rest⟩ := Option.bind_eq_some_iff.mp ran
    obtain ⟨m', -, -, last⟩ := terminal_run rest
    exact last
  | next decoded' emitted =>
    cases decoded.symm.trans decoded'
    cases emitted

theorem block_twice (bench : b.bench = true) {code : Code} (block : BlockOf b memory pc code)
    {f : Frame Bench} {m : Machine Bench} {exit : Exit}
    (ran : code.run (benchHost rng undefinedShift) f = some (m, exit))
    (twice : f.machine.env.retired + 1 < m.env.retired) :
    ∃ c, decode (opcodeAt memory pc) = some (.skip c) ∧ c.holds f.machine.vm = false ∧
      opClass (opcodeAt memory (pc + 2)) = 0x1 := by
  -- Code behind the prologue that retires nothing contradicts the count.
  have single {opCount : Nat} {body : Code} (none : body.spends = 0)
      (ran : (seq (prologue b opCount) body).run (benchHost rng undefinedShift) f =
        some (m, exit)) : False := by
    have counted := Code.run_retired ran
    rw [seq_spends, spends_prologue bench, none] at counted
    omega
  have closed {rest : Code} {pc' : Word} (closing : rest = .goto pc' ∨ rest = closeLoop b memory pc') :
      rest.spends = 0 := by
    obtain rfl | rfl := closing
    · rfl
    · exact closeLoop_spends pc'
  cases block with
  | stop decoded emitted => exact (single (stop_spends emitted).1 ran).elim
  | @next pcBlock opCount i pc' body rest decoded emitted closing =>
    by_cases skip : ∃ c, i = .skip c
    · obtain ⟨c, rfl⟩ := skip
      refine ⟨c, decoded, ?_⟩
      cases emitted
      rw [seq_run] at ran
      obtain ⟨f', entered, inner⟩ := Option.bind_eq_some_iff.mp ran
      have first := runAll_retired entered
      rw [spends_prologue bench] at first
      have vm : f'.machine.vm = f.machine.vm := by
        obtain ⟨env, enters⟩ := prologue_run (P := benchHost rng undefinedShift) b opCount f
        cases entered.symm.trans enters
        rfl
      obtain ⟨g, machine, decided⟩ := @skipCond_run b c (seq [.setPc (.const (pc + 4))] rest)
        (b.emitFallen (b.idleWait memory) pcBlock pc (opcodeAt memory (pc + 2))) f'
        (benchHost rng undefinedShift)
      have inner := decided.symm.trans inner
      rw [vm] at inner
      split at inner
      · have counted := Code.run_retired inner
        rw [seq_spends, closed closing, machine] at counted
        change _ ≤ _ + 0 at counted
        omega
      · rename_i fails
        refine ⟨Bool.eq_false_iff.mpr fails, ?_⟩
        by_contra other
        have counted := Code.run_retired inner
        rw [Build.emitFallen, if_neg other, seq_spends, machine] at counted
        change _ ≤ _ + 0 at counted
        omega
    · obtain ⟨spent, -⟩ := next_plain (fun c same => skip ⟨c, same⟩) emitted rest
      exact (single (spent.trans (closed closing)) ran).elim

/-! ## The run so far -/

theorem InStep.agree {d : Dispatcher Bench} {s : State Bench} (inStep : InStep d s)
    (going : d.position ≠ .stopped .errer) : d.machine.env.Agree s.env := by
  unfold InStep at inStep
  split at inStep
  · exact inStep.env
  · exact inStep.env
  · rename_i failed
    exact absurd failed going
  · exact inStep.env

/-- Between the return of the last trace and the end. -/
def Closing (d : Dispatcher Bench) : Prop :=
  d.machine.env.done = true ∧ (d.position = .returned ∨ d.position = .stopped .quit)

/-- The interpreter's `n` steps to where the dispatcher is. Only the last of them may have
been a wait that was cut short, and then the run is about to end. -/
structure Heard (rng : Nat → BitVec 32) (undefinedShift : Byte → BitVec 32) (start : State Bench)
    (d : Dispatcher Bench) (s : State Bench) (n : Nat) : Prop where
  run : benchRun rng undefinedShift n start = some s
  patient : Patient rng undefinedShift start (n - 1)
  last : Patient rng undefinedShift start n ∨ Closing d

variable {start : State Bench}

theorem Tracks.fetched {f : Frame Bench} {s : State Bench} (tracks : Tracks f pc s)
    (agrees : ∀ byte v, (byte, v) ∈ passReads memory pc → f.machine.vm.memory byte = memory byte) :
    opcodeAt s.vm.memory s.vm.programCounter = opcodeAt memory pc := by
  rw [tracks.vm]
  exact opcodeAt_congr fun byte v read => agrees byte v (List.mem_append_left _ read)

theorem Tracks.second {f : Frame Bench} {s t : State Bench} (tracks : Tracks f pc s)
    (agrees : ∀ byte v, (byte, v) ∈ passReads memory pc → f.machine.vm.memory byte = memory byte)
    {c : SkipCond} (decoded : decode (opcodeAt memory pc) = some (.skip c))
    (fails : c.holds f.machine.vm = false) (jump : opClass (opcodeAt memory (pc + 2)) = 0x1)
    (next : benchStep rng undefinedShift s = some t) : ¬ Waits t := by
  have executed := (benchStep_eq_some rng undefinedShift).mp next
  rw [basicBlock_eq, show opcodeAt (benchEnter s).vm.memory (benchEnter s).vm.programCounter =
    opcodeAt memory pc from tracks.fetched agrees, decoded] at executed
  have vm : (benchEnter s).vm = f.machine.vm.setPc pc := tracks.vm
  have fails' : c.holds (benchEnter s).vm = false := by
    rw [vm, ← fails]
    cases c <;> rfl
  have after := congrArg Prod.snd executed
  simp only [Insn.exec, fails', Interpreter.skipIf, Bool.false_eq_true, if_false] at after
  have behind : opcodeAt t.vm.memory t.vm.programCounter = opcodeAt memory (pc + 2) := by
    rw [← after]
    show opcodeAt (benchEnter s).vm.memory ((benchEnter s).vm.programCounter + 2) = _
    rw [vm]
    refine opcodeAt_congr fun byte v read => agrees byte v (List.mem_append_right _ ?_)
    rw [if_pos (isSkip_of_decode decoded)]
    exact read
  rintro ⟨x, waits⟩
  rw [behind, decode_fused jump] at waits
  cases waits

theorem step_still {d d' : Dispatcher Bench} (still : ∀ t a, d.position ≠ .running t a)
    (next : d.step (benchHost rng undefinedShift) b = some d') :
    d'.machine.env.retired = d.machine.env.retired ∧ d'.position ≠ .stopped .errer ∧
      (Closing d → Closing d') := by
  have noClosing (other : d.position ≠ .returned) (other' : d.position ≠ .stopped .quit) :
      Closing d → Closing d' := fun closing => (closing.2.elim other other').elim
  unfold Dispatcher.step at next
  cases here : d.position with
  | top =>
    rw [here] at next noClosing
    refine and_assoc.mp ⟨?_, noClosing (by simp) (by simp)⟩
    dsimp only at next
    split at next
    · cases next
      obtain ⟨rest, blocks, -, same⟩ | ⟨-, same⟩ := compile_cases b d
      · rw [same]
        exact ⟨rfl, by simp [here]⟩
      · rw [same]
        exact ⟨rfl, by simp⟩
    · cases next
      exact ⟨rfl, by simp⟩
  | running t a => exact absurd here (still t a)
  | backedge t a =>
    rw [here] at next noClosing
    refine and_assoc.mp ⟨?_, noClosing (by simp) (by simp)⟩
    dsimp only at next
    split at next <;>
    · cases next
      exact ⟨rfl, by simp⟩
  | returned =>
    rw [here] at next
    cases next
    obtain ⟨env, position⟩ := @service_env rng undefinedShift d
    have counts := Bench.checkInterrupt_counts d.machine.env
    have keeps := Bench.keeps_keysNow d.machine.env.checkInterrupt
    -- With the budget spent, the service raises `program_over`: a closing run is quit.
    refine ⟨?_, ?_, fun closing => ?_⟩
    · rw [env, keeps.retired, counts.1]
    · rw [position]
      split <;> simp
    · have checked := Bench.watches_checkInterrupt d.machine.env
      have served := checked.trans (Bench.watches_keysNow d.machine.env.checkInterrupt)
      have isOver : d.machine.env.checkInterrupt.programOver = true := by
        by_contra going
        have unfinished := Bench.checkInterrupt_going (Bool.eq_false_iff.mpr going)
        rw [Bench.done_mono checked.retired checked.pollClock checked.budget checked.clockCap
          closing.1] at unfinished
        cases unfinished
      unfold Closing
      rw [env, position, keysNow_programOver, isOver]
      exact ⟨Bench.done_mono served.retired served.pollClock served.budget served.clockCap closing.1,
        .inr rfl⟩
  | stopped why =>
    rw [here] at next
    cases next

theorem Heard.step (bench : b.bench = true) {d d' : Dispatcher Bench} {s : State Bench} {n : Nat}
    (coherent : Coherent b d) (inStep : InStep d s) (heard : Heard rng undefinedShift start d s n)
    (next : d.step (benchHost rng undefinedShift) b = some d') (range : d'.machine.env.InRange) :
    ∃ k t, Run.after (benchStep rng undefinedShift) k s = some t ∧ InStep d' t ∧
      Heard rng undefinedShift start d' t (n + k) := by
  obtain ⟨k, t, further, inStep'⟩ := step_inStep bench coherent inStep next range
  have moves : ∀ why, d.position ≠ .stopped why := by
    intro why at_
    unfold Dispatcher.step at next
    rw [at_] at next
    cases next
  -- Only a block retires instructions; `step_still` is about the other steps.
  by_cases runs : ∃ t a, d.position = .running t a
  · obtain ⟨trace, pc, here⟩ := runs
    have patient : Patient rng undefinedShift start n := by
      obtain patient | closing := heard.last
      · exact patient
      · exact (closing.2.elim (by rw [here]; simp) (moves _)).elim
    have stepped := next
    unfold Dispatcher.step at stepped
    rw [here] at stepped
    obtain ⟨code, found, rest⟩ := Option.bind_eq_some_iff.mp stepped
    obtain ⟨memory, block, agrees⟩ := coherent.block b here found
    cases ran : code.run (benchHost rng undefinedShift) ⟨d.machine, fun _ => 0#8⟩ with
    | none =>
      rw [ran] at rest
      cases rest
      exact ⟨0, s, rfl, trivial, heard.run, heard.patient, .inl patient⟩
    | some out =>
      rw [ran] at rest
      cases rest
      obtain ⟨m, exit⟩ := out
      have tracks : Tracks ⟨d.machine, fun _ => 0#8⟩ pc s := by
        unfold InStep at inStep
        rw [here] at inStep
        exact inStep
      have agree : m.env.Agree t.env := inStep'.agree (by cases exit <;> simp [Dispatcher.leave])
      have counted : m.env.retired = d.machine.env.retired + k := by
        have left : m.env.retired = t.env.retired := congrArg Clock.retired agree.clock
        have right : d.machine.env.retired = s.env.retired := congrArg Clock.retired tracks.env.clock
        rw [left, right]
        exact benchRun_retired rng undefinedShift further
      have few : m.env.retired ≤ d.machine.env.retired + 2 :=
        Nat.le_trans (Code.run_retired ran) (Nat.add_le_add_left (block.spends bench).1 _)
      have fetched := tracks.fetched agrees
      have whole := Run.after_trans heard.run further
      have small : k ≤ 2 := by omega
      suffices both : Patient rng undefinedShift start (n + k - 1) ∧
          (Patient rng undefinedShift start (n + k) ∨
            Closing { d with machine := m, position := Dispatcher.leave trace exit }) from
        ⟨k, t, further, inStep', whole, both.1, both.2⟩
      obtain rfl | rfl | rfl : k = 0 ∨ k = 1 ∨ k = 2 := by omega
      · exact ⟨heard.patient, .inl patient⟩
      · refine ⟨patient, ?_⟩
        have single : benchStep rng undefinedShift s = some t := by
          obtain ⟨u, first, last⟩ := Run.after_succ.mp further
          cases first
          exact last
        -- A wait that outlasts the budget is the last instruction; any other is patient.
        by_cases lost : Waits s ∧ t.env.done = true
        · obtain ⟨⟨x, waits⟩, isOver⟩ := lost
          rw [fetched] at waits
          refine .inr ⟨agree.done.trans isOver, .inl ?_⟩
          rw [block_waits block waits ran]
          rfl
        · refine .inl (patient.succ heard.run single fun waits => ?_)
          exact Bool.eq_false_iff.mpr fun isOver => lost ⟨waits, isOver⟩
      · -- A skip and the jump folded into it.
        obtain ⟨c, decoded, fails, jump⟩ := block_twice bench block ran
          (show d.machine.env.retired + 1 < m.env.retired by omega)
        obtain ⟨u, first, last⟩ := Run.after_succ.mp further
        obtain ⟨v, same, first⟩ := Run.after_succ.mp first
        cases same
        have noWait : ¬ Waits s := by
          rintro ⟨x, waits⟩
          rw [fetched, decoded] at waits
          cases waits
        have reached := Run.after_succ.mpr ⟨s, heard.run, first⟩
        have once := patient.succ heard.run first fun waits => absurd waits noWait
        have twice := once.succ reached last fun waits =>
          absurd waits (tracks.second agrees decoded fails jump first)
        exact ⟨once, .inl twice⟩
  · obtain ⟨still, going, closes⟩ := step_still (fun t a here => runs ⟨t, a, here⟩) next
    have zero : k = 0 := by
      have left : d'.machine.env.retired = t.env.retired :=
        congrArg Clock.retired (inStep'.agree going).clock
      have right : d.machine.env.retired = s.env.retired :=
        congrArg Clock.retired (inStep.agree (moves _)).clock
      have counted : t.env.retired = s.env.retired + k := benchRun_retired rng undefinedShift further
      omega
    subst zero
    cases further
    exact ⟨0, s, rfl, inStep', heard.run, heard.patient, heard.last.imp id closes⟩

theorem hears (bench : b.bench = true) :
    Run.Simulation (Dispatcher.step (benchHost rng undefinedShift) b)
      (benchStep rng undefinedShift) (fun d => d.machine.env.InRange)
      (fun d s => Coherent b d ∧ InStep d s ∧ ∃ n, Heard rng undefinedShift start d s n) where
  backwards d d' next range :=
    range.earlier (step_keeps (benchHost_keeps rng undefinedShift) next)
  simulate d d' s related next range := by
    obtain ⟨coherent, inStep, n, heard⟩ := related
    obtain ⟨k, t, further, inStep', heard'⟩ := heard.step bench coherent inStep next range
    exact ⟨k, t, further, step_coherent _ b coherent next, inStep', _, heard'⟩

/-- Wherever a run has come without `errer`, the interpreter has come in as many steps as the
JIT retired instructions, and none of its waits but the last step's was cut short. -/
theorem run_heard (bench : b.bench = true) {vm : VM} {budget clockCap : Int} {keyMode : KeyMode}
    {delay sound : Byte} {n : Nat} {d : Dispatcher Bench}
    (run : Run.after (Dispatcher.step (benchHost rng undefinedShift) b) n
      (Jit.start vm (powerOn budget clockCap keyMode delay sound)) = some d)
    (going : d.position ≠ .stopped .errer) (range : d.machine.env.InRange) :
    ∃ s, Heard rng undefinedShift ⟨vm, powerOn budget clockCap keyMode delay sound⟩ d s
        d.machine.env.retired ∧ d.machine.env.Agree s.env ∧ InStep d s := by
  have serviced : (powerOn budget clockCap keyMode delay sound).Serviced := by
    constructor <;> simp [powerOn, Bench.initial, Bench.longTick, Bench.now]
  have started : InStep (Jit.start vm (powerOn budget clockCap keyMode delay sound))
      ⟨vm, powerOn budget clockCap keyMode delay sound⟩ := lands_ret rfl (.refl serviced)
  have silent : Patient rng undefinedShift ⟨vm, powerOn budget clockCap keyMode delay sound⟩ 0 :=
    fun k u v before => absurd before (Nat.not_lt_zero k)
  obtain ⟨k, s, -, -, inStep, m, heard⟩ := (hears bench).run
    ⟨start_coherent b vm _, started, 0, rfl, silent, .inl silent⟩ run range
  have agree := inStep.agree going
  have count : d.machine.env.retired = m := by
    have right : d.machine.env.retired = s.env.retired := congrArg Clock.retired agree.clock
    rw [right, benchRun_retired rng undefinedShift heard.run]
    exact Nat.zero_add m
  exact ⟨s, count ▸ heard, agree, inStep⟩

end

end ChipEight.Jit
