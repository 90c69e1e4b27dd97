import ChipEight.Jit.Tracking

/-! The two code generators make the same machine.

libgccjit names a register where LLVM names a value loaded from it, and LLVM tests the
carry as a signed comparison. Neither is seen by a program: the dispatchers built on the
two generators go through the same states, with caches of the same traces whose code
does the same.
-/

set_option autoImplicit false

namespace ChipEight.Jit

section
variable {E : Type} (P : Host E)

/-! ## Code that does the same -/

/-- Operations with one effect on the machine, whatever the slots hold. -/
def SameEffect (ops ops' : List Op) : Prop :=
  ∀ (m : Machine E) (slots slots' : Slots),
    (runAll P ops ⟨m, slots⟩).map Frame.machine = (runAll P ops' ⟨m, slots'⟩).map Frame.machine

/-- Code that leaves the same machine through the same exit. -/
def SameCode (k k' : Code) : Prop :=
  ∀ (m : Machine E) (slots slots' : Slots), k.run P ⟨m, slots⟩ = k'.run P ⟨m, slots'⟩

inductive SameEmit : Emit → Emit → Prop where
  | bail : SameEmit .bail .bail
  | stop {k k' : Code} (same : SameCode P k k') : SameEmit (.stop k) (.stop k')
  | next {pc : Word} {body body' : Code → Code}
      (same : ∀ k k', SameCode P k k' → SameCode P (body k) (body' k')) :
      SameEmit (.next pc body) (.next pc body')

/-- Blocks of the same addresses, in the same order. -/
def SameBlocks : List (Word × Code) → List (Word × Code) → Prop :=
  List.Forall₂ fun p p' => p.1 = p'.1 ∧ SameCode P p.2 p'.2

inductive SameOutcome : Outcome → Outcome → Prop where
  | bail : SameOutcome .bail .bail
  | code {rest rest' : Code} {blocks blocks' : List (Word × Code)} (rests : SameCode P rest rest')
      (same : SameBlocks P blocks blocks') : SameOutcome (.code rest blocks) (.code rest' blocks')
  | outOfFuel : SameOutcome .outOfFuel .outOfFuel

structure SameCompilation (r r' : Compilation) : Prop where
  reads : r.reads = r'.reads
  marks : r.marks = r'.marks
  indices : r.indices = r'.indices
  outcome : SameOutcome P r.outcome r'.outcome

structure SameTrace (t t' : Trace) : Prop where
  start : t.start = t'.start
  reads : t.reads = t'.reads
  blocks : SameBlocks P t.blocks t'.blocks

inductive SamePosition : Position → Position → Prop where
  | top : SamePosition .top .top
  | running {t t' : Trace} (same : SameTrace P t t') (pc : Word) :
      SamePosition (.running t pc) (.running t' pc)
  | backedge {t t' : Trace} (same : SameTrace P t t') (pc : Word) :
      SamePosition (.backedge t pc) (.backedge t' pc)
  | returned : SamePosition .returned .returned
  | stopped (why : Stop) : SamePosition (.stopped why) (.stopped why)

/-- Dispatchers that differ in the code of their traces only, and there not in what it does. -/
structure SameState (d d' : Dispatcher E) : Prop where
  machine : d.machine = d'.machine
  cache : ∀ pc, Option.Rel (SameTrace P) (d.cache pc) (d'.cache pc)
  traceCount : d.traceCount = d'.traceCount
  compiled : d.compiled = d'.compiled
  flushes : d.flushes = d'.flushes
  position : SamePosition P d.position d'.position

variable {P}

/-! ## Composition -/

theorem SameEffect.append {ops ops' more more' : List Op} (first : SameEffect P ops ops')
    (second : SameEffect P more more') : SameEffect P (ops ++ more) (ops' ++ more') := by
  intro m slots slots'
  have same := first m slots slots'
  rw [runAll_append, runAll_append]
  cases ran : runAll P ops ⟨m, slots⟩ with
  | none =>
    rw [ran, Option.map_none, eq_comm, Option.map_eq_none_iff] at same
    rw [same]
    rfl
  | some f =>
    rw [ran, Option.map_some, eq_comm, Option.map_eq_some_iff] at same
    obtain ⟨f', ran', machine⟩ := same
    obtain ⟨m', s⟩ := f
    obtain ⟨m'', s'⟩ := f'
    obtain rfl : m'' = m' := machine
    rw [ran']
    exact second m'' s s'

theorem SameCode.seq {ops ops' : List Op} {k k' : Code} (first : SameEffect P ops ops')
    (second : SameCode P k k') : SameCode P (seq ops k) (seq ops' k') := by
  intro m slots slots'
  have same := first m slots slots'
  rw [seq_run, seq_run]
  cases ran : runAll P ops ⟨m, slots⟩ with
  | none =>
    rw [ran, Option.map_none, eq_comm, Option.map_eq_none_iff] at same
    rw [same]
    rfl
  | some f =>
    rw [ran, Option.map_some, eq_comm, Option.map_eq_some_iff] at same
    obtain ⟨f', ran', machine⟩ := same
    obtain ⟨m', s⟩ := f
    obtain ⟨m'', s'⟩ := f'
    obtain rfl : m'' = m' := machine
    rw [ran']
    exact second m'' s s'

theorem SameEffect.nil : SameEffect P [] [] := fun _ _ _ => rfl

theorem sameEffect_call (h : Helper) : SameEffect P [.call h] [.call h] := by
  intro m slots slots'
  simp only [runAll, Op.run]
  cases h.run P m with
  | none => rfl
  | some m' => rfl

theorem sameEffect_callHostOp (pc : Word) (h : Helper) :
    SameEffect P (Build.callHostOp pc h) (Build.callHostOp pc h) :=
  have stored : SameEffect P [.setPc (.const pc)] [.setPc (.const pc)] := fun _ _ _ => rfl
  stored.append (sameEffect_call h)

theorem SameCode.ret : SameCode P .ret .ret := fun _ _ _ => rfl

theorem SameCode.goto (pc : Word) : SameCode P (.goto pc) (.goto pc) := fun _ _ _ => rfl

theorem SameCode.backedge (pc : Word) : SameCode P (.backedge pc) (.backedge pc) :=
  fun _ _ _ => rfl

theorem sameEmit_straight {pc : Word} {ops ops' : List Op} (same : SameEffect P ops ops') :
    SameEmit P (Build.straight pc ops) (Build.straight pc ops') :=
  .next fun _ _ rest => .seq same rest

theorem sameEmit_terminal {ops ops' : List Op} (same : SameEffect P ops ops') :
    SameEmit P (Build.terminal ops) (Build.terminal ops') :=
  .stop (.seq same .ret)

/-! ## What the generators emit -/

variable (bench elideIdle : Bool)

/-- The build of a generator. -/
def gccBuild : Build := ⟨.libgccjit, bench, elideIdle⟩

def llvmBuild : Build := ⟨.llvm, bench, elideIdle⟩

variable {bench elideIdle}

theorem sameEffect_retire (n : Nat) :
    SameEffect P ((gccBuild bench elideIdle).retire n) ((llvmBuild bench elideIdle).retire n) := by
  cases bench <;> exact fun _ _ _ => rfl

theorem sameEffect_syncTimers :
    SameEffect P (gccBuild bench elideIdle).syncTimers (llvmBuild bench elideIdle).syncTimers := by
  cases bench <;> exact fun _ _ _ => rfl

theorem sameEffect_idleWait (memory : Memory) (t : Word) :
    SameEffect P ((gccBuild bench elideIdle).idleWait memory t)
      ((llvmBuild bench elideIdle).idleWait memory t) := by
  have emitted (waits : Bool) : SameEffect P (if waits then [.call .idleWait] else [])
      (if waits then [.call .idleWait] else []) := by
    cases waits with
    | true => exact sameEffect_call .idleWait
    | false => exact .nil
  exact emitted (!bench && elideIdle && (idleDelayLoop memory t).isSome)

theorem sameEffect_prologue (opCount : Nat) :
    SameEffect P (prologue (gccBuild bench elideIdle) opCount)
      (prologue (llvmBuild bench elideIdle) opCount) := by
  refine .append ?_ (sameEffect_retire 1)
  split <;> exact fun _ _ _ => rfl

theorem sameEffect_alu (o : AluOp) (x y : Reg) :
    SameEffect P (aluOps (gccBuild bench elideIdle) o x y)
      (aluOps (llvmBuild bench elideIdle) o x y) := by
  cases o with
  | add =>
    intro m slots slots'
    have carry (b : Build) := carryTest_eval b (m.vm.regs x) (m.vm.regs y)
    exact congrArg (fun c => some (m.mapVM fun vm => (vm.setReg x
      (((m.vm.regs x).setWidth 16 + (m.vm.regs y).setWidth 16).setWidth 8)).setFlags (flag c)))
      ((carry (gccBuild bench elideIdle)).trans (carry (llvmBuild bench elideIdle)).symm)
  | _ => exact fun _ _ _ => rfl

theorem sameCode_skip (c : SkipCond) {taken taken' fallen fallen' : Code}
    (goes : SameCode P taken taken') (leaves : SameCode P fallen fallen') :
    SameCode P
      (seq (emitSkipCond (gccBuild bench elideIdle) c).2.1
        (.cond (emitSkipCond (gccBuild bench elideIdle) c).1
          (emitSkipCond (gccBuild bench elideIdle) c).2.2.1
          (emitSkipCond (gccBuild bench elideIdle) c).2.2.2 taken fallen))
      (seq (emitSkipCond (llvmBuild bench elideIdle) c).2.1
        (.cond (emitSkipCond (llvmBuild bench elideIdle) c).1
          (emitSkipCond (llvmBuild bench elideIdle) c).2.2.1
          (emitSkipCond (llvmBuild bench elideIdle) c).2.2.2 taken' fallen')) := by
  intro m slots slots'
  let loaded (n : Nat) (x : Reg) (s : Slots) : Slots := Function.update s n (m.vm.regs x)
  have decided {holds : Bool} (s : Slots) :
      (if holds then taken.run P ⟨m, slots⟩ else fallen.run P ⟨m, slots⟩) =
        if holds then taken'.run P ⟨m, s⟩ else fallen'.run P ⟨m, s⟩ := by
    cases holds with
    | true => exact goes m slots s
    | false => exact leaves m slots s
  cases c with
  | eqImm x kk | neImm x kk => exact decided (loaded 0 x slots')
  | eqReg x y | neReg x y => exact decided (loaded 1 y (loaded 0 x slots'))

section
variable {memory : Memory} {pcBlock : List Word} {pc fusedOp : Word}

theorem sameCode_closed (t : Word) :
    SameCode P
      (seq ([.safepoint, .setPc (.const t)] ++ (gccBuild bench elideIdle).idleWait memory t)
        (.backedge t))
      (seq ([.safepoint, .setPc (.const t)] ++ (llvmBuild bench elideIdle).idleWait memory t)
        (.backedge t)) :=
  have stored : SameEffect P [.safepoint, .setPc (.const t)] [.safepoint, .setPc (.const t)] :=
    fun _ _ _ => rfl
  .seq (stored.append (sameEffect_idleWait memory t)) (.backedge t)

theorem sameCode_fallen :
    SameCode P
      ((gccBuild bench elideIdle).emitFallen ((gccBuild bench elideIdle).idleWait memory) pcBlock
        pc fusedOp)
      ((llvmBuild bench elideIdle).emitFallen ((llvmBuild bench elideIdle).idleWait memory)
        pcBlock pc fusedOp) := by
  have stored (t : Word) :
      SameEffect P [.safepoint, .setPc (.const t)] [.safepoint, .setPc (.const t)] :=
    fun _ _ _ => rfl
  have folded (t : Word) :
      SameEffect P ((gccBuild bench elideIdle).retire 1 ++ [.safepoint, .setPc (.const t)])
        ((llvmBuild bench elideIdle).retire 1 ++ [.safepoint, .setPc (.const t)]) :=
    (sameEffect_retire 1).append (stored t)
  unfold Build.emitFallen
  split
  · dsimp only
    split
    · exact .seq ((folded _).append (sameEffect_idleWait memory _)) (.backedge _)
    · exact .seq (folded _) .ret
  · exact fun _ _ _ => rfl

theorem sameEmit_jump (t : Word) (opCount : Nat) :
    SameEmit P
      (Build.emitJump ((gccBuild bench elideIdle).idleWait memory) pcBlock t opCount)
      (Build.emitJump ((llvmBuild bench elideIdle).idleWait memory) pcBlock t opCount) := by
  have stored : SameEffect P [.safepoint, .setPc (.const t)] [.safepoint, .setPc (.const t)] :=
    fun _ _ _ => rfl
  unfold Build.emitJump
  dsimp only
  split
  · exact .stop (sameCode_closed t)
  · split
    · exact .next fun _ _ rest => .seq stored rest
    · exact sameEmit_terminal stored

theorem sameEmit_emitOf (opCount : Nat) (i : Insn) :
    SameEmit P
      (emitOf (gccBuild bench elideIdle) ((gccBuild bench elideIdle).idleWait memory) pcBlock pc
        fusedOp opCount i)
      (emitOf (llvmBuild bench elideIdle) ((llvmBuild bench elideIdle).idleWait memory) pcBlock pc
        fusedOp opCount i) := by
  cases i with
  | cls => exact sameEmit_straight (sameEffect_call .clearscreenIo)
  | ret => exact sameEmit_terminal (sameEffect_call .retern)
  | jp nnn => exact sameEmit_jump _ opCount
  | call nnn => exact sameEmit_terminal (sameEffect_callHostOp pc .call)
  | skip c =>
    refine .next fun _ _ rest => sameCode_skip c (.seq ?_ rest) sameCode_fallen
    exact fun _ _ _ => rfl
  | ld x kk => exact sameEmit_straight fun _ _ _ => rfl
  | add x kk => exact sameEmit_straight fun _ _ _ => rfl
  | alu o x y => exact sameEmit_straight (sameEffect_alu o x y)
  | ldI nnn => exact sameEmit_straight fun _ _ _ => rfl
  | jpV0 nnn => exact sameEmit_terminal fun _ _ _ => rfl
  | rnd x kk => exact sameEmit_straight (sameEffect_callHostOp pc .randomByte)
  | drw x y n => exact sameEmit_straight (sameEffect_callHostOp pc .draw)
  | skipKey x up => exact sameEmit_terminal (sameEffect_callHostOp pc _)
  | ldDelay x =>
    have read : SameEffect P [.getDelay x] [.getDelay x] := fun _ _ _ => rfl
    exact sameEmit_straight (sameEffect_syncTimers.append read)
  | ldKey x => exact sameEmit_terminal (sameEffect_callHostOp pc .loadOnKey)
  | setDelay x | setSound x =>
    refine sameEmit_straight ?_
    cases bench <;> exact fun _ _ _ => rfl
  | addI x => exact sameEmit_straight fun _ _ _ => rfl
  | ldF x => exact sameEmit_straight fun _ _ _ => rfl
  | bcd x => exact sameEmit_terminal (sameEffect_callHostOp pc .storeBcd)
  | save x => exact sameEmit_terminal (sameEffect_callHostOp pc .saveRegisters)
  | restore x => exact sameEmit_straight (sameEffect_callHostOp pc .restoreRegisters)

end

/-! ## Compilations -/

theorem SameOutcome.prepend {pc : Word} {body body' : Code → Code} {o o' : Outcome}
    (same : SameOutcome P o o') (bodies : ∀ k k', SameCode P k k' → SameCode P (body k) (body' k')) :
    SameOutcome P (o.prepend pc body) (o'.prepend pc body') := by
  cases same with
  | bail => exact .bail
  | code rests blocks => exact .code (.goto pc) (.cons ⟨rfl, bodies _ _ rests⟩ blocks)
  | outOfFuel => exact .outOfFuel

theorem codegenLoop_same (memory : Memory) (fuel : Nat) (pc : Word) (opCount : Nat)
    (emitted : List Word) :
    SameCompilation P (codegenLoop (gccBuild bench elideIdle) memory fuel pc opCount emitted)
      (codegenLoop (llvmBuild bench elideIdle) memory fuel pc opCount emitted) := by
  induction fuel generalizing pc opCount emitted with
  | zero => exact ⟨rfl, rfl, rfl, .outOfFuel⟩
  | succ fuel ih =>
    by_cases again : pc ∈ emitted
    · rw [codegenLoop, codegenLoop, if_pos again, if_pos again]
      exact ⟨rfl, rfl, rfl, .code (sameCode_closed pc) .nil⟩
    · rw [codegenLoop, codegenLoop, if_neg again, if_neg again]
      simp only [emitInsn_eq]
      cases decode (opcodeAt memory pc) with
      | none => exact ⟨rfl, rfl, rfl, .bail⟩
      | some i =>
        dsimp only
        have emission := @sameEmit_emitOf E P bench elideIdle memory (pc :: emitted) pc
          (opcodeAt memory (pc + 2)) opCount i
        generalize emitOf (gccBuild bench elideIdle) _ _ _ _ _ _ = emit at emission ⊢
        generalize emitOf (llvmBuild bench elideIdle) _ _ _ _ _ _ = emit' at emission ⊢
        cases emission with
        | bail => exact ⟨rfl, rfl, rfl, .bail⟩
        | stop same =>
          exact ⟨rfl, rfl, rfl, .code (.goto pc)
            (.cons ⟨rfl, .seq (sameEffect_prologue opCount) same⟩ .nil)⟩
        | @next pc' body body' same =>
          have later := ih pc' (opCount + 1) (pc :: emitted)
          refine ⟨?_, ?_, ?_, ?_⟩
          · exact congrArg (passReads memory pc ++ ·) later.reads
          · exact congrArg (passMarks memory pc ++ ·) later.marks
          · exact congrArg (pc :: passTargets memory pc ++ ·) later.indices
          · exact later.outcome.prepend fun k k' rest =>
              .seq (sameEffect_prologue opCount) (same k k' rest)

/-! ## The dispatchers -/

theorem SameTrace.block {t t' : Trace} (same : SameTrace P t t') (pc : Word) :
    Option.Rel (SameCode P) (t.block pc) (t'.block pc) := by
  have blocks := same.blocks
  unfold Trace.block
  generalize t.blocks = bs at blocks ⊢
  generalize t'.blocks = bs' at blocks ⊢
  induction blocks with
  | nil => exact .none
  | @cons p p' _ _ first _ ih =>
    obtain ⟨a, k⟩ := p
    obtain ⟨a', k'⟩ := p'
    obtain ⟨rfl, code⟩ := first
    rw [List.lookup_cons, List.lookup_cons]
    cases pc == a with
    | true => exact .some code
    | false => exact ih

theorem SameTrace.leave {t t' : Trace} (same : SameTrace P t t') (exit : Exit) :
    SamePosition P (Dispatcher.leave t exit) (Dispatcher.leave t' exit) := by
  cases exit with
  | goto pc => exact .running same pc
  | backedge pc => exact .backedge same pc
  | ret => exact .returned

theorem SameState.compile {d d' : Dispatcher E} (same : SameState P d d') :
    SameState P (d.compile (gccBuild bench elideIdle)) (d'.compile (llvmBuild bench elideIdle)) := by
  have made := @codegenLoop_same E P bench elideIdle d.machine.vm.memory (2 ^ 16 + 1)
    d.machine.vm.programCounter 0 []
  unfold Dispatcher.compile codegen
  rw [← same.machine]
  dsimp only
  rw [← made.marks, ← made.reads]
  have outcome := made.outcome
  generalize (codegenLoop (gccBuild bench elideIdle) _ _ _ _ _).outcome = o at outcome ⊢
  generalize (codegenLoop (llvmBuild bench elideIdle) _ _ _ _ _).outcome = o' at outcome ⊢
  cases outcome with
  | bail => exact ⟨rfl, same.cache, same.traceCount, same.compiled, same.flushes, .stopped _⟩
  | outOfFuel => exact ⟨rfl, same.cache, same.traceCount, same.compiled, same.flushes, .stopped _⟩
  | code _ blocks =>
    refine ⟨rfl, fun pc => ?_, same.traceCount, congrArg (· + 1) same.compiled, same.flushes,
      same.position⟩
    dsimp only
    rw [Function.update_apply, Function.update_apply]
    split
    · exact .some ⟨rfl, rfl, blocks⟩
    · exact same.cache pc

theorem SameState.service {d d' : Dispatcher E} (same : SameState P d d') :
    SameState P (d.service P) (d'.service P) := by
  obtain ⟨m, cache, traceCount, compiled, flushes, position⟩ := d
  obtain ⟨m', cache', traceCount', compiled', flushes', position'⟩ := d'
  obtain ⟨rfl, traces, rfl, rfl, rfl, at_⟩ := same
  cases pending : m.smcPending with
  | true =>
    simp only [Dispatcher.service, Machine.mapEnv, pending, if_true,
      Dispatcher.invalidateTraces]
    generalize (_ || _ : Bool) = isOver
    cases isOver with
    | true => exact ⟨rfl, fun _ => .none, rfl, rfl, rfl, .stopped _⟩
    | false => exact ⟨rfl, fun _ => .none, rfl, rfl, rfl, .top⟩
  | false =>
    simp only [Dispatcher.service, Machine.mapEnv, pending, Bool.false_eq_true, if_false]
    generalize (_ || _ : Bool) = isOver
    cases isOver with
    | true => exact ⟨rfl, traces, rfl, rfl, rfl, .stopped _⟩
    | false => exact ⟨rfl, traces, rfl, rfl, rfl, .top⟩

theorem SameState.step {d d' : Dispatcher E} (same : SameState P d d') :
    Option.Rel (SameState P) (d.step P (gccBuild bench elideIdle))
      (d'.step P (llvmBuild bench elideIdle)) := by
  have at_ := same.position
  unfold Dispatcher.step
  generalize here : d.position = p at at_
  generalize here' : d'.position = p' at at_
  cases at_ with
  | top =>
    have hit := same.cache d.machine.vm.programCounter
    dsimp only
    rw [← same.machine]
    cases found : d.cache d.machine.vm.programCounter with
    | none =>
      rw [found] at hit
      generalize d'.cache d.machine.vm.programCounter = c at hit ⊢
      cases hit
      exact .some same.compile
    | some t =>
      rw [found] at hit
      generalize d'.cache d.machine.vm.programCounter = c at hit ⊢
      cases hit with
      | @some _ t' traces =>
        refine .some ⟨rfl, same.cache, same.traceCount, same.compiled, same.flushes, ?_⟩
        dsimp only
        rw [traces.start]
        exact .running traces t'.start
  | @running t t' traces pc =>
    have blocks := traces.block pc
    dsimp only
    generalize t.block pc = k at blocks ⊢
    generalize t'.block pc = k' at blocks ⊢
    cases blocks with
    | none => exact .none
    | @some code code' codes =>
      dsimp only [Option.bind_eq_bind, Option.bind_some]
      -- The slots are scratch of a block: the code of both computes the same from any.
      rw [← same.machine, ← codes d.machine (fun _ => 0#8) (fun _ => 0#8)]
      cases code.run P ⟨d.machine, fun _ => 0#8⟩ with
      | none =>
        exact .some ⟨rfl, same.cache, same.traceCount, same.compiled, same.flushes, .stopped _⟩
      | some out =>
        exact .some ⟨rfl, same.cache, same.traceCount, same.compiled, same.flushes,
          traces.leave out.2⟩
  | backedge traces pc =>
    dsimp only
    rw [← same.machine]
    split
    · exact .some ⟨rfl, same.cache, same.traceCount, same.compiled, same.flushes, .returned⟩
    · exact .some ⟨rfl, same.cache, same.traceCount, same.compiled, same.flushes,
        .running traces pc⟩
  | returned => exact .some same.service
  | stopped why => exact .none

end

/-- The dispatchers of the two generators are in the same state after any number of steps, on
any host and with any switches: machine, counters, position, and a cache of the same traces,
the code of which does the same on every machine. They stop at the same step, for one reason. -/
theorem generators_agree {E : Type} (P : Host E) (bench elideIdle : Bool) (vm : VM) (env : E)
    (n : Nat) :
    Option.Rel (SameState P)
      (Run.after (Dispatcher.step P (gccBuild bench elideIdle)) n (start vm env))
      (Run.after (Dispatcher.step P (llvmBuild bench elideIdle)) n (start vm env)) :=
  Run.lockstep (fun _ _ => SameState.step) ⟨rfl, fun _ => .none, rfl, rfl, rfl, .top⟩ n

end ChipEight.Jit
