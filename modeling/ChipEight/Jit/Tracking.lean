import ChipEight.Jit.BenchHost
import ChipEight.Jit.Coherence
import ChipEight.Machine.Clock

/-! Native code against the interpreter, one instruction at a time.

A frame inside a trace keeps its PC in the code generator. `Tracks f pc s` says
that the interpreter's state `s` is the frame with that PC put back, under a host
that agrees on the clock. What one instruction is compiled to keeps the relation,
for both generators; the fused jump behind a skip takes a second step.
-/

set_option autoImplicit false

namespace ChipEight

namespace Bench

/-! ## Servicing is invisible -/

theorem Agree.checkInterrupt {b b' : Bench} (agree : Agree b b') (range : b.InRange) :
    Agree b.checkInterrupt b' := by
  unfold Bench.checkInterrupt
  dsimp only
  split
  · exact (agree.syncTimers range).setOver
  · exact agree.syncTimers range

theorem Agree.safepoint {b b' : Bench} (agree : Agree b b') (range : b.InRange) :
    Agree b.safepoint b' := by
  unfold Bench.safepoint
  split
  · have checked := agree.checkInterrupt range
    exact ⟨checked.clock, ⟨checked.left.1, checked.left.2⟩, checked.right⟩
  · exact agree

theorem keeps_setOver (b : Bench) : Keeps b b.setOver := ⟨rfl, rfl, rfl, rfl, Nat.le_refl _⟩

theorem Agree.jump {b b' : Bench} (agree : Agree b b') (range : b.InRange) :
    Agree b.safepoint b'.syncTimers :=
  ((agree.symm.syncTimers (agree.inRange range)).symm).safepoint range

theorem Agree.interrupt {b b' : Bench} (agree : Agree b b') (range : b.InRange) :
    Agree b.checkInterrupt b'.syncTimers :=
  ((agree.symm.syncTimers (agree.inRange range)).symm).checkInterrupt range

theorem now_checkInterrupt (b : Bench) : b.now ≤ b.checkInterrupt.now := by
  have synced := (keeps_syncTimers b).now_le
  unfold checkInterrupt
  dsimp only
  split <;> exact synced

theorem now_safepoint (b : Bench) : b.now ≤ b.safepoint.now := by
  unfold safepoint
  split
  · exact now_checkInterrupt b
  · exact Nat.le_refl _

theorem InRange.earlier {b b' : Bench} (range : b'.InRange) (later : b.now ≤ b'.now) :
    b.InRange := by
  have ticks : b.longTick ≤ b'.longTick := Nat.div_le_div_right later
  exact Nat.lt_of_le_of_lt ticks range

end Bench

namespace Jit

/-! ## The clock never runs backwards -/

/-- A relation every service of a JIT host keeps. -/
structure Host.Keeps {E : Type} (P : Host E) (R : E → E → Prop) : Prop where
  platform : P.toPlatform.Keeps R
  checkInterrupt : ∀ e, R e (P.checkInterrupt e)
  retire : ∀ n e, R e (P.retire n e)
  safepoint : ∀ e, R e (P.safepoint e)
  idleWait : ∀ e, R e (P.idleWait e)

section
variable {E : Type} {P : Host E} {R : E → E → Prop} (keeps : P.Keeps R)
include keeps

theorem Helper.run_keeps {h : Helper} {m m' : Machine E} (ran : h.run P m = some m') :
    R m.env m'.env := by
  cases h with
  | retern =>
    simp only [Helper.run, Machine.retern] at ran
    split at ran
    · cases ran; exact keeps.checkInterrupt m.env
    · cases ran
  | call =>
    simp only [Helper.run, Machine.call] at ran
    split at ran
    · cases ran; exact keeps.checkInterrupt m.env
    · cases ran
  | randomByte => cases ran; exact keeps.platform.rand m.env
  | draw =>
    cases ran
    exact keeps.platform.trans (keeps.checkInterrupt m.env) (keeps.platform.frameSync _)
  | skipKeyXDown | skipKeyXUp =>
    simp only [Helper.run, Machine.skipKeyX, Option.some.injEq] at ran
    subst ran
    split
    · exact keeps.platform.trans (keeps.platform.allKeysDown m.env) (keeps.platform.clearKey _ _)
    · exact keeps.platform.allKeysDown m.env
  | loadOnKey =>
    have scanned := keeps.platform.trans (keeps.platform.awaitKeys m.env)
      (scanKeys_keeps keeps.platform (opX m.opcode) (P.awaitKeys m.env).1
        ⟨m.vm, (P.awaitKeys m.env).2⟩)
    simp only [Helper.run, Machine.loadOnKey] at ran
    split at ran
    · cases ran
    · cases ran; exact scanned
  | storeBcd =>
    cases ran
    exact noteStore_env m.vm.addr 3 m ▸ keeps.platform.refl _
  | saveRegisters =>
    cases ran
    exact noteStore_env m.vm.addr ((opX m.opcode).toNat + 1) m ▸ keeps.platform.refl _
  | syncTimers => cases ran; exact keeps.platform.syncTimers m.env
  | idleWait =>
    simp only [Helper.run, Machine.idleWait, Option.some.injEq] at ran
    subst ran
    split
    · exact keeps.idleWait m.env
    · exact keeps.platform.refl m.env
  | clearscreenIo | restoreRegisters => cases ran; exact keeps.platform.refl m.env

theorem Op.run_keeps {o : Op} {f f' : Frame E} (ran : o.run P f = some f') :
    R f.machine.env f'.machine.env := by
  cases o with
  | call h =>
    simp only [Op.run, Option.map_eq_some_iff] at ran
    obtain ⟨m, called, rfl⟩ := ran
    exact Helper.run_keeps keeps called
  | getDelay x => cases ran; exact keeps.platform.getDelayTimer _
  | setDelay e => cases ran; exact keeps.platform.setDelayTimer _ _
  | setSound e => cases ran; exact keeps.platform.setSoundTimer _ _
  | retire n => cases ran; exact keeps.retire n _
  | safepoint => cases ran; exact keeps.safepoint _
  | _ => cases ran; exact keeps.platform.refl _

theorem runAll_keeps {ops : List Op} {f f' : Frame E} (ran : runAll P ops f = some f') :
    R f.machine.env f'.machine.env := by
  induction ops generalizing f with
  | nil => cases ran; exact keeps.platform.refl _
  | cons o ops ih =>
    obtain ⟨g, first, later⟩ := Option.bind_eq_some_iff.mp ran
    exact keeps.platform.trans (Op.run_keeps keeps first) (ih later)

theorem Code.run_keeps {c : Code} {f : Frame E} {m : Machine E} {exit : Exit}
    (ran : c.run P f = some (m, exit)) : R f.machine.env m.env := by
  induction c generalizing f with
  | op o k ih =>
    obtain ⟨g, first, later⟩ := Option.bind_eq_some_iff.mp ran
    exact keeps.platform.trans (Op.run_keeps keeps first) (ih later)
  | cond c a b taken fallen ihTaken ihFallen =>
    simp only [Code.run] at ran
    split at ran
    · exact ihTaken ran
    · exact ihFallen ran
  | goto pc => cases ran; exact keeps.platform.refl _
  | backedge pc => cases ran; exact keeps.platform.refl _
  | ret => cases ran; exact keeps.platform.refl _

theorem service_keeps (d : Dispatcher E) : R d.machine.env (d.service P).machine.env := by
  have served := keeps.platform.trans (keeps.checkInterrupt d.machine.env)
    (keeps.platform.allKeysDown _)
  cases pending : d.machine.smcPending with
  | true =>
    simp only [Dispatcher.service, Machine.mapEnv, pending, if_true]
    split <;> exact served
  | false =>
    simp only [Dispatcher.service, Machine.mapEnv, pending, Bool.false_eq_true, if_false]
    split <;> exact served

theorem step_keeps {b : Build} {d d' : Dispatcher E} (next : Dispatcher.step P b d = some d') :
    R d.machine.env d'.machine.env := by
  have refl := keeps.platform.refl d.machine.env
  unfold Dispatcher.step at next
  cases here : d.position with
  | top =>
    rw [here] at next
    dsimp only at next
    split at next
    · cases next
      rcases compile_cases b d with ⟨rest, blocks, -, same⟩ | ⟨-, same⟩ <;> rw [same] <;> exact refl
    · cases next; exact refl
  | running t a =>
    rw [here] at next
    obtain ⟨code, -, rest⟩ := Option.bind_eq_some_iff.mp next
    cases ran : code.run P ⟨d.machine, fun _ => 0#8⟩ with
    | none => rw [ran] at rest; cases rest; exact refl
    | some out => rw [ran] at rest; cases rest; exact Code.run_keeps keeps ran
  | backedge t a =>
    rw [here] at next
    dsimp only at next
    split at next <;> cases next <;> exact refl
  | returned => rw [here] at next; cases next; exact service_keeps keeps d
  | stopped why => rw [here] at next; cases next

end

/-! ## The relation -/

section
variable (rng : Nat → BitVec 32) (undefinedShift : Byte → BitVec 32)

theorem benchHost_keeps : (benchHost rng undefinedShift).Keeps fun b b' => b.now ≤ b'.now where
  platform :=
    { refl := fun _ => Nat.le_refl _
      trans := Nat.le_trans
      interrupt := fun b => (Bench.keeps_syncTimers b).now_le
      syncTimers := fun b => (Bench.keeps_syncTimers b).now_le
      getDelayTimer := fun _ => Nat.le_refl _
      setDelayTimer := fun _ _ => Nat.le_refl _
      setSoundTimer := fun _ _ => Nat.le_refl _
      rand := fun _ => Nat.le_refl _
      allKeysDown := fun b => (Bench.keeps_keysNow b).now_le
      clearKey := fun key b => (keeps_clearKey undefinedShift key b).now_le
      awaitKeys := fun b => (Bench.keeps_awaitKeys Bench.keeps_setOver b).now_le
      frameSync := fun _ => Nat.le_refl _ }
  checkInterrupt := Bench.now_checkInterrupt
  retire n b := by
    simp only [benchHost, Bench.retire, Bench.now]
    omega
  safepoint := Bench.now_safepoint
  idleWait _ := Nat.le_refl _

/-- The interpreter is in the state of the frame with its PC at `pc`. -/
structure Tracks (f : Frame Bench) (pc : Word) (s : State Bench) : Prop where
  vm : s.vm = f.machine.vm.setPc pc
  env : f.machine.env.Agree s.env

/-- The interpreter is where control leaves a block. On a back edge the emitted code
has stored the PC as well. -/
structure Lands (m : Machine Bench) (exit : Exit) (s : State Bench) : Prop where
  vm : s.vm = match exit with
    | .goto pc => m.vm.setPc pc
    | _ => m.vm
  backedge : ∀ pc, exit = .backedge pc → m.vm.programCounter = pc
  env : m.env.Agree s.env

/-- One instruction of the interpreter leads to the frame `f` at `pc`. -/
def Follows (op : Word) (i : Insn) (s : State Bench) (f : Frame Bench) (pc : Word) : Prop :=
  ∃ s', i.exec (benchPlatform rng undefinedShift) op s = (0#32, s') ∧ Tracks f pc s'

/-- One instruction of the interpreter leads to where control leaves the trace. -/
def Ends (op : Word) (i : Insn) (s : State Bench) (m : Machine Bench) (exit : Exit) : Prop :=
  ∃ s', i.exec (benchPlatform rng undefinedShift) op s = (0#32, s') ∧ Lands m exit s'

variable {rng undefinedShift}

theorem lands_ret {m : Machine Bench} {s : State Bench} (vm : s.vm = m.vm)
    (agree : m.env.Agree s.env) : Lands m .ret s :=
  ⟨vm, fun _ closed => (nomatch closed), agree⟩

theorem lands_backedge {m : Machine Bench} {s : State Bench} {pc : Word} (vm : s.vm = m.vm)
    (stored : m.vm.programCounter = pc) (agree : m.env.Agree s.env) : Lands m (.backedge pc) s :=
  ⟨vm, fun _ closed => (by cases closed; exact stored), agree⟩

theorem step_tracks {f : Frame Bench} {vm : VM} {env : Bench} {pc : Word}
    (at_ : vm.programCounter = pc) (same : vm.setPc (pc + 2) = f.machine.vm.setPc (pc + 2))
    (agree : f.machine.env.Agree env) :
    ∃ s', Interpreter.step ⟨vm, env⟩ = (0#32, s') ∧ Tracks f (pc + 2) s' := by
  refine ⟨_, rfl, ?_, agree⟩
  rw [← same, ← at_]
  rfl

theorem prologue_tracks {b : Build} (bench : b.bench = true) {f f' : Frame Bench} {pc : Word}
    {s : State Bench} {opCount : Nat} (tracks : Tracks f pc s)
    (ran : runAll (benchHost rng undefinedShift) (prologue b opCount) f = some f')
    (range : f'.machine.env.InRange) :
    Tracks f' pc (benchEnter s) ∧ f'.machine.vm = f.machine.vm := by
  have later := runAll_keeps (benchHost_keeps rng undefinedShift) ran
  have entered : ∀ g : Frame Bench, Tracks g pc s →
      Tracks (g.mapEnv (Bench.retire 1)) pc (benchEnter s) := fun g tracks =>
    ⟨tracks.vm, (tracks.env.symm.keysNow.2).symm.charge 1 0⟩
  unfold prologue at ran
  rw [Build.retire, if_pos bench, runAll_append] at ran
  split at ran
  · cases ran
    refine ⟨entered _ ⟨tracks.vm, tracks.env.safepoint (range.earlier later)⟩, rfl⟩
  · cases ran
    exact ⟨entered f tracks, rfl⟩

/-! ## Straight-line instructions -/

theorem carryTest_eval (b : Build) (vx vy : Byte) :
    b.carryTest.eval (vx.setWidth 16 + vy.setWidth 16) 0xff#16 =
      decide (vx.setWidth 16 + vy.setWidth 16 > 0xff#16) := by
  have hx := vx.isLt
  have hy := vy.isLt
  unfold Build.carryTest
  split
  · rfl
  · simp only [Comparison.eval, BitVec.slt, GT.gt, BitVec.lt_def]
    congr 1
    rw [BitVec.toInt_eq_toNat_of_lt, BitVec.toInt_eq_toNat_of_lt]
    · simp only [Int.ofNat_lt]
    · simp only [BitVec.toNat_add, BitVec.toNat_setWidth]
      omega
    · decide

theorem shl_flag (v : Byte) : (v &&& 0x80#8) >>> (7#8) = flag (v &&& 0x80#8 != 0#8) := by
  revert v
  decide

theorem font_address (v : Byte) :
    (v.setWidth 16 &&& 0x0f#16) * 5#16 = (v &&& 0x0f#8).setWidth 16 * 5 := by
  revert v
  decide

section
variable {b : Build} {f f' : Frame Bench} {pc op : Word} {s : State Bench}

theorem alu_run {o : AluOp} {x y : Reg} {P : Host Bench}
    (ran : runAll P (aluOps b o x y) f = some f') :
    f'.machine = f.machine.mapVM (o.apply x y) := by
  cases o with
  | move =>
    simp only [aluOps, aluLow, Build.emitAlu, Build.operand, Option.getD_some] at ran
    split at ran <;> cases ran <;> rfl
  | or | and | xor =>
    simp only [aluOps, aluLow, Build.emitAlu, Build.emitBinary, Build.operand,
      Option.getD_some] at ran
    split at ran <;> cases ran <;> rfl
  | add =>
    cases ran
    exact congrArg (fun c => f.machine.mapVM fun vm => (vm.setReg x
      (((f.machine.vm.regs x).setWidth 16 + (f.machine.vm.regs y).setWidth 16).setWidth 8)).setFlags
        (flag c)) (carryTest_eval b (f.machine.vm.regs x) (f.machine.vm.regs y))
  | sub | subn | shr => cases ran; rfl
  | shl =>
    cases ran
    exact congrArg (fun v => f.machine.mapVM fun vm => (vm.setReg x
      (f.machine.vm.regs x <<< 1)).setFlags v) (shl_flag (f.machine.vm.regs x))

theorem operand_run {n : Nat} {x : Reg} {P : Host Bench} {ops : List Op}
    (ran : runAll P ((b.operand n x).1 ++ ops) f = some f') :
    ∃ g, runAll P ops g = some f' ∧ g.machine = f.machine ∧
      ∀ h : Frame Bench, h.slots = g.slots → h.machine.vm.regs x = f.machine.vm.regs x →
        h.value (b.operand n x).2 = f.machine.vm.regs x := by
  obtain ⟨backend, bench, elideIdle⟩ := b
  cases backend with
  | libgccjit => exact ⟨f, ran, rfl, fun _ _ same => same⟩
  | llvm =>
    refine ⟨_, ran, rfl, fun h slots _ => ?_⟩
    show h.slots n = _
    rw [slots]
    exact Function.update_self n _ _

end

section
variable {b : Build} {memory : Memory} {pcBlock : List Word} {pc fusedOp op : Word}
variable {k : Nat} {i : Insn} {f f' : Frame Bench} {s : State Bench}

theorem syncTimers_run (bench : b.bench = true) {P : Host Bench} {ops : List Op}
    (ran : runAll P (b.syncTimers ++ ops) f = some f') :
    runAll P ops (f.mapEnv P.syncTimers) = some f' := by
  rw [Build.syncTimers, if_pos bench] at ran
  exact ran

theorem ldDelay_follows (bench : b.bench = true) (tracks : Tracks f pc s)
    (range : f.machine.env.InRange) {x : Reg}
    (ran : runAll (benchHost rng undefinedShift) (b.syncTimers ++ [.getDelay x]) f = some f') :
    Follows rng undefinedShift op (.ldDelay x) s f' (pc + 2) := by
  obtain ⟨vm, env⟩ := s
  obtain ⟨same, agree⟩ := tracks
  cases same
  cases syncTimers_run bench ran
  refine step_tracks rfl ?_ (agree.syncBoth range)
  exact congrArg (fun d => (f.machine.vm.setReg x d).setPc (pc + 2)) (agree.timers range).1.symm

/-- Both timer writes: bring the timers up to date, then assign a register. -/
theorem setTimer_follows (bench : b.bench = true) (tracks : Tracks f pc s) {x : Reg}
    {write : Value 8 → Op} {set : Byte → Bench → Bench}
    (writes : ∀ g e, (write e).run (benchHost rng undefinedShift) g =
      some (g.mapEnv (set (g.value e))))
    (executes : ∀ s, i.exec (benchPlatform rng undefinedShift) op s =
      Interpreter.step ⟨s.vm, set (s.vm.regs x) s.env.syncTimers⟩)
    (agrees : ∀ v, (set v f.machine.env.syncTimers).Agree (set v s.env.syncTimers))
    (ran : runAll (benchHost rng undefinedShift)
      ((b.operand 0 x).1 ++ b.syncTimers ++ [write (b.operand 0 x).2]) f = some f') :
    Follows rng undefinedShift op i s f' (pc + 2) := by
  obtain ⟨vm, env⟩ := s
  obtain ⟨same, agree⟩ := tracks
  cases same
  rw [List.append_assoc] at ran
  obtain ⟨g, ran, machine, value⟩ := operand_run ran
  have last := syncTimers_run bench ran
  simp only [runAll, writes, Option.bind_some, Option.some.injEq] at last
  have read := value (g.mapEnv (benchHost rng undefinedShift).syncTimers) rfl
    (congrArg (fun m => m.vm.regs x) machine)
  rw [Follows, executes]
  subst last
  refine step_tracks rfl ?_ ?_
  · rw [← machine]
    rfl
  · have written := agrees (f.machine.vm.regs x)
    rw [← read, ← machine] at written
    rw [← read]
    exact written

theorem straight_next {ops : List Op} {rest : Code} {m : Machine Bench} {exit : Exit} {pc' : Word}
    (ran : (seq ops rest).run (benchHost rng undefinedShift) f = some (m, exit))
    (each : ∀ f', runAll (benchHost rng undefinedShift) ops f = some f' →
      Follows rng undefinedShift op i s f' pc') :
    ∃ f', rest.run (benchHost rng undefinedShift) f' = some (m, exit) ∧
      Follows rng undefinedShift op i s f' pc' := by
  rw [seq_run] at ran
  obtain ⟨f', first, later⟩ := Option.bind_eq_some_iff.mp ran
  exact ⟨f', later, each f' first⟩

theorem next_tracks (bench : b.bench = true) (tracks : Tracks f pc s)
    (here : opcodeAt f.machine.vm.memory pc = op) (decoded : decode op = some i)
    (noSkip : ∀ c, i ≠ .skip c) {pc' : Word} {body : Code → Code} {rest : Code}
    {m : Machine Bench} {exit : Exit} (range : f.machine.env.InRange)
    (emitted : emitOf b (b.idleWait memory) pcBlock pc fusedOp k i = .next pc' body)
    (ran : (body rest).run (benchHost rng undefinedShift) f = some (m, exit)) :
    ∃ f', rest.run (benchHost rng undefinedShift) f' = some (m, exit) ∧
      Follows rng undefinedShift op i s f' pc' := by
  have operands := decode_operands decoded
  cases i with
  | skip c => exact absurd rfl (noSkip c)
  | jp nnn =>
    -- Followed inside the trace: the target has no block yet, and the trace is not too long.
    simp only [emitOf, Build.emitJump, Build.terminal] at emitted
    split at emitted
    · cases emitted
    split at emitted
    · cases emitted
      refine straight_next ran fun f' ran => ?_
      cases ran
      refine ⟨_, rfl, ?_, tracks.env.jump range⟩
      rw [tracks.vm]
      rfl
    · cases emitted
  | cls =>
    cases emitted
    refine straight_next ran fun f' ran => ?_
    cases ran
    obtain ⟨vm, env⟩ := s
    obtain ⟨same, agree⟩ := tracks
    cases same
    exact step_tracks rfl rfl agree
  | ld x kk | ldI nnn =>
    cases emitted
    refine straight_next ran fun f' ran => ?_
    cases ran
    obtain ⟨vm, env⟩ := s
    obtain ⟨same, agree⟩ := tracks
    cases same
    exact step_tracks rfl rfl agree
  -- The operand is the register, or the slot it has just been loaded into.
  | add x kk | addI x | ldF x =>
    cases emitted
    refine straight_next ran fun f' ran => ?_
    obtain ⟨⟨machine, slots⟩, ran, same, value⟩ := operand_run ran
    cases same
    cases ran
    have read := value ⟨f.machine, slots⟩ rfl rfl
    obtain ⟨vm, env⟩ := s
    obtain ⟨same, agree⟩ := tracks
    cases same
    refine step_tracks rfl ?_ agree
    first
    | exact congrArg (fun v => (f.machine.vm.setReg x (v + kk)).setPc (pc + 2)) read.symm
    | exact congrArg (fun v : Byte => VM.setPc
        { f.machine.vm with addr := f.machine.vm.addr + v.setWidth 16 } (pc + 2)) read.symm
    | exact congrArg (fun a => VM.setPc { f.machine.vm with addr := a } (pc + 2))
        ((font_address _).symm.trans
          (congrArg (fun v : Byte => (v.setWidth 16 &&& 0x0f#16) * 5#16) read.symm))
  | alu o x y =>
    cases emitted
    refine straight_next ran fun f' ran => ?_
    have machine := alu_run ran
    obtain ⟨vm, env⟩ := s
    obtain ⟨same, agree⟩ := tracks
    cases same
    refine step_tracks ?_ ?_ ?_
    · cases o <;> rfl
    · rw [machine]
      cases o <;> rfl
    · rw [machine]
      exact agree
  | ldDelay x =>
    cases emitted
    exact straight_next ran fun f' ran => ldDelay_follows bench tracks range ran
  | setDelay x =>
    cases emitted
    exact straight_next ran fun f' ran => setTimer_follows bench tracks (fun _ _ => rfl)
      (fun _ => rfl) (tracks.env.setDelay range) ran
  | setSound x =>
    cases emitted
    exact straight_next ran fun f' ran => setTimer_follows bench tracks (fun _ _ => rfl)
      (fun _ => rfl) (tracks.env.setSound range) ran
  | rnd x kk =>
    cases emitted
    refine straight_next ran fun f' ran => ?_
    rw [callHostOp_run] at ran
    cases ran
    obtain ⟨vm, env⟩ := s
    obtain ⟨same, agree⟩ := tracks
    cases same
    obtain ⟨rfl, rfl⟩ := operands
    subst here
    -- Hosts that agree have drawn equally often, so they draw the same number.
    obtain ⟨drawn, agree⟩ := agree.rand rng
    refine step_tracks rfl ?_ agree
    exact congrArg (fun v : BitVec 32 => (f.machine.vm.setReg _
      ((v &&& 0xff#32).setWidth 8 &&& _)).setPc (pc + 2)) drawn.symm
  | drw x y n =>
    cases emitted
    refine straight_next ran fun f' ran => ?_
    rw [callHostOp_run] at ran
    cases ran
    obtain ⟨vm, env⟩ := s
    obtain ⟨same, agree⟩ := tracks
    cases same
    obtain ⟨rfl, rfl, rfl⟩ := operands
    subst here
    exact step_tracks rfl rfl (agree.interrupt range)
  | restore x =>
    cases emitted
    refine straight_next ran fun f' ran => ?_
    rw [callHostOp_run] at ran
    cases ran
    obtain ⟨vm, env⟩ := s
    obtain ⟨same, agree⟩ := tracks
    cases same
    cases operands
    subst here
    refine step_tracks ?_ ?_ agree
    · exact congrArg VM.programCounter (restoreLoop_setPc _ f.machine.vm pc)
    · rfl
  | ret | call nnn | jpV0 nnn | skipKey x up | ldKey x | bcd x | save x => cases emitted

/-! ## Instructions that end a trace -/

theorem idleWait_bench (bench : b.bench = true) (header : Word) :
    b.idleWait memory header = [] := by
  simp [Build.idleWait, bench]

theorem scanKeys_agree {e e' : Bench} (agree : e.Agree e') (x : Reg) (keys : BitVec 32)
    (vm : VM) (pc : Word) :
    let left := Interpreter.scanKeys (benchHost rng undefinedShift).toPlatform x keys ⟨vm.setPc pc, e⟩
    let right := Interpreter.scanKeys (benchPlatform rng undefinedShift) x keys ⟨vm.setPc pc, e'⟩
    left.vm = right.vm ∧ left.vm.programCounter = pc ∧ left.env.Agree right.env := by
  unfold Interpreter.scanKeys
  have at_ : (vm.setPc pc).programCounter = pc := rfl
  revert at_
  generalize vm.setPc pc = vm
  generalize List.range 16 = is
  intro at_
  induction is generalizing vm e e' with
  | nil => exact ⟨rfl, at_, agree⟩
  | cons i is ih =>
    refine ih (agree.clearKey undefinedShift _) _ ?_
    dsimp only
    split <;> exact at_

theorem terminal_run {P : Host Bench} {h : Helper} {m : Machine Bench} {exit : Exit}
    (ran : (seq (Build.callHostOp pc h) .ret).run P f = some (m, exit)) :
    ∃ m', h.run P (f.machine.mapVM fun vm => vm.setPc pc) = some m' ∧ m = m' ∧ exit = .ret := by
  rw [seq_run, callHostOp_run] at ran
  obtain ⟨f', mapped, last⟩ := Option.bind_eq_some_iff.mp ran
  obtain ⟨m', called, rfl⟩ := Option.map_eq_some_iff.mp mapped
  cases last
  exact ⟨m', called, rfl, rfl⟩

theorem storing_vm (a : Word) (n : Nat) (m : Machine Bench) (g : VM → VM) :
    ((m.noteStore a n).mapVM g).advance.vm = (g m.vm).setPc ((g m.vm).programCounter + 2) ∧
      ((m.noteStore a n).mapVM g).advance.env = m.env := by
  simp only [Machine.advance, Machine.mapVM, noteStore_vm, noteStore_env, and_self]

theorem stop_tracks (bench : b.bench = true) (tracks : Tracks f pc s)
    (here : opcodeAt f.machine.vm.memory pc = op) (decoded : decode op = some i)
    {body : Code} {m : Machine Bench} {exit : Exit} (range : f.machine.env.InRange)
    (emitted : emitOf b (b.idleWait memory) pcBlock pc fusedOp k i = .stop body)
    (ran : body.run (benchHost rng undefinedShift) f = some (m, exit)) :
    Ends rng undefinedShift op i s m exit := by
  have operands := decode_operands decoded
  obtain ⟨vm, env⟩ := s
  obtain ⟨same, agree⟩ := tracks
  cases same
  cases i with
  | jp nnn =>
    -- A back edge to one of the blocks, or a jump in a trace that has grown too long.
    simp only [emitOf, Build.emitJump, Build.terminal, idleWait_bench bench] at emitted
    split at emitted
    · cases emitted
      cases ran
      exact ⟨_, rfl, lands_backedge rfl rfl (agree.jump range)⟩
    split at emitted
    · cases emitted
    · cases emitted
      cases ran
      exact ⟨_, rfl, lands_ret rfl (agree.jump range)⟩
  | ret =>
    cases emitted
    -- `ran` has an exit, so `errer` was not called and there is an address to return to.
    simp only [seq, List.foldr_cons, List.foldr_nil, Code.run, Op.run, Helper.run,
      Machine.retern] at ran
    split at ran
    · rename_i pending
      cases ran
      exact ⟨_, if_pos pending, lands_ret rfl (agree.interrupt range)⟩
    · cases ran
  | call nnn =>
    cases emitted
    cases operands
    obtain ⟨m', called, rfl, rfl⟩ := terminal_run ran
    simp only [Helper.run, Machine.call] at called
    split at called
    · rename_i room
      cases called
      subst here
      exact ⟨_, if_pos room, lands_ret rfl (agree.interrupt range)⟩
    · cases called
  | jpV0 nnn =>
    cases emitted
    rw [seq_run] at ran
    obtain ⟨f', first, last⟩ := Option.bind_eq_some_iff.mp ran
    cases last
    obtain ⟨⟨machine, slots⟩, first, same, value⟩ := operand_run first
    cases same
    cases first
    have read := value ⟨f.machine, slots⟩ rfl rfl
    refine ⟨_, rfl, lands_ret ?_ agree⟩
    exact congrArg (fun v : Byte => f.machine.vm.setPc (nnn.setWidth 16 + v.setWidth 16)) read.symm
  | skipKey x up =>
    cases emitted
    cases operands
    obtain ⟨m', called, rfl, rfl⟩ := terminal_run ran
    subst here
    obtain ⟨keys, polled⟩ := agree.keysNow
    -- The skip reads the keys of the JIT's own host, which shows the same ones.
    have polled := polled.symm.keysNow.2.symm
    have called : m = Machine.skipKeyX (benchHost rng undefinedShift) up
        (f.machine.mapVM fun vm => vm.setPc pc) := by
      cases up <;> exact (Option.some.inj called).symm
    subst called
    have same : (benchHost rng undefinedShift).allKeysDown f.machine.env =
      (env.keysNow.1, f.machine.env.keysNow.2) := Prod.ext keys rfl
    simp only [Machine.skipKeyX, Machine.mapVM, same]
    split
    · rename_i pressed
      exact ⟨_, if_pos pressed, lands_ret rfl (polled.clearKey undefinedShift _)⟩
    · rename_i released
      exact ⟨_, if_neg released, lands_ret rfl polled⟩
  | ldKey x =>
    cases emitted
    cases operands
    obtain ⟨m', called, rfl, rfl⟩ := terminal_run ran
    subst here
    obtain ⟨keys, polled⟩ :=
      -- Where the wait gives up the JIT raises `program_over`, which `Agree` does not look at.
      @Bench.Agree.awaitKeys _ _ Bench.setOver id agree fun _ _ agree => agree.setOver
    have scanned := @scanKeys_agree rng undefinedShift _ _ polled
      (opX (opcodeAt f.machine.vm.memory pc)) (env.awaitKeys id).1 f.machine.vm pc
    have same : (benchHost rng undefinedShift).awaitKeys f.machine.env =
      ((env.awaitKeys id).1, (f.machine.env.awaitKeys Bench.setOver).2) := Prod.ext keys rfl
    simp only [Helper.run, Machine.loadOnKey, Machine.mapVM, same] at called
    split at called
    · cases called
    · rename_i stays
      cases called
      refine ⟨_, if_neg stays, lands_ret ?_ scanned.2.2⟩
      exact congrArg (fun vm : VM => vm.setPc (vm.programCounter + 2)) scanned.1.symm
  | bcd x | save x =>
    cases emitted
    cases operands
    obtain ⟨m', called, rfl, rfl⟩ := terminal_run ran
    cases called
    subst here
    obtain ⟨stored, kept⟩ := storing_vm _ _ (f.machine.mapVM fun vm => vm.setPc pc) _
    exact ⟨_, rfl, lands_ret stored.symm (kept ▸ agree)⟩
  | skip c => cases emitted
  | _ => cases emitted

end

end

end Jit

end ChipEight
