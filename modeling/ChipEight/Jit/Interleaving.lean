import ChipEight.Jit.Backends
import ChipEight.Jit.Refinement
import ChipEight.Machine.Errors
import Mathlib.Logic.Relation

/-! The JITs on any host.

An interactive JIT services its timers and keys when a signal has come in, so no run of the
interpreter has them at the same moments. What is left is an interleaving: the machine is
moved by instructions, as the interpreter executes them, and between two instructions the
host may be serviced. Nothing else happens to it, on either generator and with every switch.
-/

set_option autoImplicit false

namespace ChipEight.Jit

section
variable {E : Type} (P : Host E)

/-- The platform an instruction runs on when the host is serviced in between. -/
def Host.quiet : Platform E := { P.toPlatform with interrupt := id, syncTimers := id }

/-- What the native code and the dispatcher ask of the host between instructions. -/
inductive Service : E → E → Prop where
  | checkInterrupt (e : E) : Service e (P.checkInterrupt e)
  | retire (n : Nat) (e : E) : Service e (P.retire n e)
  | safepoint (e : E) : Service e (P.safepoint e)
  | syncTimers (e : E) : Service e (P.syncTimers e)
  | poll (e : E) : Service e (P.allKeysDown e).2

inductive Move (elides : Bool) : State E → State E → Prop where
  | execute {s s' : State E} (executed : Interpreter.basicBlock P.quiet s = (0#32, s')) :
      Move elides s s'
  | service (vm : VM) {e e' : E} (serviced : Service P e e') : Move elides ⟨vm, e⟩ ⟨vm, e'⟩
  /-- A wait that `--elide-idle` makes of a loop that polls the delay timer. -/
  | wait {s : State E} {x : Reg} (elided : elides = true)
      (loop : idleDelayLoop s.vm.memory s.vm.programCounter = some x) :
      Move elides s ⟨s.vm.setReg x 0#8, P.idleWait s.env⟩

abbrev Interleaves (elides : Bool) : State E → State E → Prop :=
  Relation.ReflTransGen (Move P elides)

/-- Control leaves a block where an interleaving from `s` leads, or where the interpreter
rejects what `errer` rejects. -/
def Leaves (elides : Bool) (s : State E) : Option (Machine E × Exit) → Prop
  | some (m, .goto a) => Interleaves P elides s ⟨m.vm.setPc a, m.env⟩
  | some (m, .backedge a) => Interleaves P elides s ⟨m.vm, m.env⟩ ∧ m.vm.programCounter = a
  | some (m, .ret) => Interleaves P elides s ⟨m.vm, m.env⟩
  | none => ∃ t, Interleaves P elides s t ∧ Rejects P.quiet t

variable {P} {elides : Bool}

/-- The interpreter's state for a frame at `pc`. -/
def Frame.state (f : Frame E) (pc : Word) : State E := ⟨f.machine.vm.setPc pc, f.machine.env⟩

theorem Move.decoded {s s' : State E} {i : Insn}
    (decoded : decode (opcodeAt s.vm.memory s.vm.programCounter) = some i)
    (executed : i.exec P.quiet (opcodeAt s.vm.memory s.vm.programCounter) s = (0#32, s')) :
    Move P elides s s' := by
  refine .execute ?_
  rw [basicBlock_eq, decoded]
  exact executed

theorem rejects_decoded {s : State E} {i : Insn}
    (decoded : decode (opcodeAt s.vm.memory s.vm.programCounter) = some i)
    (failed : i.Rejects P.quiet s) : Rejects P.quiet s := by
  unfold Rejects
  rw [decoded]
  exact failed

theorem Leaves.head {s t : State E} {o : Option (Machine E × Exit)}
    (first : Interleaves P elides s t) (rest : Leaves P elides t o) : Leaves P elides s o := by
  rcases o with _ | ⟨m, a | a | _⟩
  · obtain ⟨u, later, rejected⟩ := rest
    exact ⟨u, first.trans later, rejected⟩
  · exact first.trans rest
  · exact ⟨first.trans rest.1, rest.2⟩
  · exact first.trans rest

/-! ## Between instructions -/

variable {bench : Bool} {memory : Memory} {pcBlock : List Word} {pc fusedOp t : Word}
variable {opCount : Nat} {i : Insn} {f : Frame E}

theorem retire_interleaves (f : Frame E) :
    ∃ f', runAll P ((gccBuild bench elides).retire 1) f = some f' ∧
      f'.machine.vm = f.machine.vm ∧ Interleaves P elides (f.state pc) (f'.state pc) := by
  unfold Build.retire
  split
  · exact ⟨_, rfl, rfl, .single (.service _ (.retire 1 _))⟩
  · exact ⟨f, rfl, rfl, .refl⟩

theorem prologue_interleaves (f : Frame E) :
    ∃ f', runAll P (prologue (gccBuild bench elides) opCount) f = some f' ∧
      f'.machine.vm = f.machine.vm ∧ Interleaves P elides (f.state pc) (f'.state pc) := by
  unfold prologue
  rw [runAll_append]
  split
  · obtain ⟨f', ran, vm, onwards⟩ := retire_interleaves (f.mapEnv P.safepoint)
    exact ⟨f', ran, vm, .head (.service _ (.safepoint _)) onwards⟩
  · exact retire_interleaves f

theorem closed_leaves (f : Frame E) :
    Leaves P elides (f.state t) ((seq ([.safepoint, .setPc (.const t)] ++
      (gccBuild bench elides).idleWait memory t) (.backedge t)).run P f) := by
  have passed : Move P elides (f.state t) ((f.mapEnv P.safepoint).state t) :=
    .service _ (.safepoint _)
  rw [seq_run, runAll_append]
  unfold Build.idleWait
  split
  · rename_i waits
    have elided : elides = true := by
      simp only [Bool.and_eq_true] at waits
      exact waits.1.2
    show Leaves P elides _ (some (Machine.idleWait P
      ((f.mapEnv P.safepoint).mapVM fun vm => vm.setPc t).machine, .backedge t))
    unfold Machine.idleWait
    split
    · rename_i x loop
      exact ⟨.head passed (.single (.wait elided loop)), rfl⟩
    · exact ⟨.single passed, rfl⟩
  · exact ⟨.single passed, rfl⟩

theorem jump_interleaves {nnn : Addr}
    (decoded : decode (opcodeAt f.machine.vm.memory pc) = some (.jp nnn)) :
    Move P elides (f.state pc) (f.state (nnn.setWidth 16)) :=
  .decoded decoded rfl

theorem jump_leaves {nnn : Addr}
    (decoded : decode (opcodeAt f.machine.vm.memory pc) = some (.jp nnn)) :
    Leaves P elides (f.state pc)
      ((seq [.safepoint, .setPc (.const (nnn.setWidth 16))] .ret).run P f) :=
  Relation.ReflTransGen.head (jump_interleaves decoded) (.single (.service _ (.safepoint _)))

/-! ## Instructions the trace goes on behind -/

theorem stepVM_interleaves (g : VM → VM)
    (decoded : decode (opcodeAt f.machine.vm.memory pc) = some i)
    (executes : ∀ op, i.exec P.quiet op = Interpreter.stepVM g)
    (same : ((g (f.machine.vm.setPc pc)).setPc ((g (f.machine.vm.setPc pc)).programCounter + 2)) =
      (g f.machine.vm).setPc (pc + 2)) :
    Interleaves P elides (f.state pc) ((f.mapVM g).state (pc + 2)) := by
  refine .single (.decoded decoded ?_)
  rw [executes]
  exact congrArg (fun vm => (0#32, (⟨vm, f.machine.env⟩ : State E))) same

theorem aluOps_run (o : AluOp) (x y : Reg) (f : Frame E) :
    ∃ f', runAll P (aluOps (gccBuild bench elides) o x y) f = some f' ∧
      f'.machine = f.machine.mapVM (o.apply x y) := by
  cases o with
  | shl =>
    exact ⟨_, rfl, congrArg (fun v => f.machine.mapVM fun vm => (vm.setReg x
      (f.machine.vm.regs x <<< 1)).setFlags v) (shl_flag (f.machine.vm.regs x))⟩
  | _ => exact ⟨_, rfl, rfl⟩

theorem syncTimers_interleaves (f : Frame E) :
    ∃ f', runAll P (gccBuild bench elides).syncTimers f = some f' ∧
      f'.machine.vm = f.machine.vm ∧ Interleaves P elides (f.state pc) (f'.state pc) := by
  unfold Build.syncTimers
  split
  · exact ⟨_, rfl, rfl, .single (.service _ (.syncTimers _))⟩
  · exact ⟨f, rfl, rfl, .refl⟩

theorem next_interleaves (decoded : decode (opcodeAt f.machine.vm.memory pc) = some i)
    (noSkip : ∀ c, i ≠ .skip c) {pc' : Word} {body : Code → Code}
    (emitted : emitOf (gccBuild bench elides) ((gccBuild bench elides).idleWait memory) pcBlock pc
      fusedOp opCount i = .next pc' body) :
    ∃ f', (∀ rest : Code, (body rest).run P f = rest.run P f') ∧
      Interleaves P elides (f.state pc) (f'.state pc') := by
  have operands := decode_operands decoded
  have straight {ops : List Op} (f' : Frame E) (ran : runAll P ops f = some f')
      (moved : Interleaves P elides (f.state pc) (f'.state pc')) :
      ∃ f', (∀ rest : Code, (seq ops rest).run P f = rest.run P f') ∧
        Interleaves P elides (f.state pc) (f'.state pc') :=
    ⟨f', fun rest => by rw [seq_run, ran]; rfl, moved⟩
  -- A timer is read or written behind the call that brings both up to date.
  have timed (o : Op) (g : Frame E → Frame E) (ran : ∀ f, o.run P f = some (g f))
      (executes : ∀ f : Frame E, decode (opcodeAt f.machine.vm.memory pc) = some i →
        Move P elides (f.state pc) ((g f).state (pc + 2))) :
      ∃ f', (∀ rest : Code, (seq ((gccBuild bench elides).syncTimers ++ [o]) rest).run P f =
          rest.run P f') ∧ Interleaves P elides (f.state pc) (f'.state (pc + 2)) := by
    obtain ⟨f', synced, vm, moved⟩ := @syncTimers_interleaves E P elides bench pc f
    refine ⟨g f', fun rest => ?_, moved.tail (executes f' (by rw [vm]; exact decoded))⟩
    rw [seq_run, runAll_append, synced, Option.bind_some, runAll, ran]
    rfl
  cases i with
  | skip c => exact absurd rfl (noSkip c)
  | jp nnn =>
    simp only [emitOf, Build.emitJump, Build.terminal] at emitted
    split at emitted
    · cases emitted
    split at emitted
    · cases emitted
      exact straight _ rfl (.head (jump_interleaves decoded) (.single (.service _ (.safepoint _))))
    · cases emitted
  | cls =>
    cases emitted
    exact straight _ rfl (stepVM_interleaves (fun vm => { vm with screen := vm.screen.clearscreenIo })
      decoded (fun _ => rfl) rfl)
  | ld x kk =>
    cases emitted
    exact straight _ rfl (stepVM_interleaves (fun vm => vm.setReg x kk) decoded (fun _ => rfl) rfl)
  | add x kk =>
    cases emitted
    exact straight _ rfl (stepVM_interleaves (fun vm => vm.setReg x (vm.regs x + kk)) decoded
      (fun _ => rfl) rfl)
  | ldI nnn =>
    cases emitted
    exact straight _ rfl (stepVM_interleaves (fun vm => { vm with addr := nnn.setWidth 16 }) decoded
      (fun _ => rfl) rfl)
  | addI x =>
    cases emitted
    exact straight _ rfl (stepVM_interleaves
      (fun vm => { vm with addr := vm.addr + (vm.regs x).setWidth 16 }) decoded (fun _ => rfl) rfl)
  | ldF x =>
    cases emitted
    have stored := congrArg (fun a => some (f.mapVM fun vm => { vm with addr := a }))
      (font_address (f.machine.vm.regs x))
    exact straight _ stored (stepVM_interleaves
      (fun vm => { vm with addr := (vm.regs x &&& 0x0f#8).setWidth 16 * 5 }) decoded
      (fun _ => rfl) rfl)
  | alu o x y =>
    cases emitted
    obtain ⟨f', ran, machine⟩ := @aluOps_run E P elides bench o x y f
    refine straight f' ran ?_
    have stepped := @stepVM_interleaves E P elides pc (.alu o x y) f (o.apply x y) decoded
      (fun _ => rfl) (by cases o <;> rfl)
    unfold Frame.state at stepped ⊢
    rw [machine]
    exact stepped
  | ldDelay x =>
    cases emitted
    exact timed _ _ (fun _ => rfl) fun _ decoded => .decoded decoded rfl
  | setDelay x | setSound x =>
    cases emitted
    exact timed _ _ (fun _ => rfl) fun _ decoded => .decoded decoded rfl
  | rnd x kk =>
    cases emitted
    obtain ⟨rfl, rfl⟩ := operands
    exact straight _ (callHostOp_run P pc _ f) (.single (.decoded decoded rfl))
  | drw x y n =>
    cases emitted
    obtain ⟨rfl, rfl, rfl⟩ := operands
    exact straight _ (callHostOp_run P pc _ f)
      (.head (.service _ (.checkInterrupt _)) (.single (.decoded decoded rfl)))
  | restore x =>
    cases emitted
    cases operands
    refine straight _ (callHostOp_run P pc _ f) (.single (.decoded decoded ?_))
    have at_ := congrArg VM.programCounter
      (restoreLoop_setPc (opX (opcodeAt f.machine.vm.memory pc)) f.machine.vm pc)
    exact congrArg (fun a => (0#32, (⟨(Interpreter.restoreLoop _ (f.machine.vm.setPc pc)).setPc (a + 2),
      f.machine.env⟩ : State E))) at_
  | ret | call nnn | jpV0 nnn | skipKey x up | ldKey x | bcd x | save x => cases emitted

/-! ## Instructions that end a trace -/

theorem callHostOp_ret (h : Helper) :
    (seq (Build.callHostOp pc h) .ret).run P f =
      (h.run P (f.machine.mapVM fun vm => vm.setPc pc)).map fun m => (m, Exit.ret) := by
  rw [seq_run, callHostOp_run]
  cases h.run P (f.machine.mapVM fun vm => vm.setPc pc) with
  | none => rfl
  | some m => rfl

theorem checkInterrupt_moves :
    Move P elides (f.state pc) ((f.mapEnv P.checkInterrupt).state pc) :=
  .service _ (.checkInterrupt _)

theorem retern_leaves (decoded : decode (opcodeAt f.machine.vm.memory pc) = some .ret) :
    Leaves P elides (f.state pc) ((seq [.call .retern] .ret).run P f) := by
  have ran : (seq [.call .retern] .ret).run P f =
      (Machine.retern P f.machine).map fun m => (m, Exit.ret) := by
    show ((Machine.retern P f.machine).map _).bind _ = _
    cases Machine.retern P f.machine with
    | none => rfl
    | some m => rfl
  rw [ran]
  unfold Machine.retern
  dsimp only
  split
  · rename_i pending
    have popped : Move P elides ((f.mapEnv P.checkInterrupt).state pc) _ :=
      .decoded decoded (if_pos pending)
    exact Leaves.head (.single checkInterrupt_moves) (Relation.ReflTransGen.single popped)
  · rename_i empty
    exact ⟨_, .single checkInterrupt_moves, rejects_decoded decoded empty⟩

theorem call_leaves {nnn : Addr} (decoded : decode (opcodeAt f.machine.vm.memory pc) =
    some (.call nnn)) : Leaves P elides (f.state pc)
      ((seq (Build.callHostOp pc .call) .ret).run P f) := by
  obtain rfl := decode_operands decoded
  rw [callHostOp_ret]
  by_cases room : f.machine.vm.stackPointer < (stackSize : Int)
  · have called : Machine.call P (f.machine.mapVM fun vm => vm.setPc pc) = some _ := if_pos room
    have pushed : Move P elides ((f.mapEnv P.checkInterrupt).state pc) _ :=
      .decoded decoded (if_pos room)
    rw [Helper.run, called]
    exact Leaves.head (.single checkInterrupt_moves) (Relation.ReflTransGen.single pushed)
  · have called : Machine.call P (f.machine.mapVM fun vm => vm.setPc pc) = none := if_neg room
    rw [Helper.run, called]
    exact ⟨_, .single checkInterrupt_moves, rejects_decoded decoded room⟩

theorem skipKey_leaves {x : Reg} {up : Bool} (decoded : decode (opcodeAt f.machine.vm.memory pc) =
    some (.skipKey x up)) : Leaves P elides (f.state pc)
      ((seq (Build.callHostOp pc (if up then .skipKeyXUp else .skipKeyXDown)) .ret).run P f) := by
  obtain rfl := decode_operands decoded
  rw [callHostOp_ret]
  have called : (if up then Helper.skipKeyXUp else Helper.skipKeyXDown).run P
      (f.machine.mapVM fun vm => vm.setPc pc) =
      some (Machine.skipKeyX P up (f.machine.mapVM fun vm => vm.setPc pc)) := by cases up <;> rfl
  rw [called]
  refine .single (.decoded decoded ?_)
  simp only [Machine.skipKeyX]
  split
  · rename_i pressed
    exact if_pos pressed
  · rename_i released
    exact if_neg released

theorem loadOnKey_leaves {x : Reg} (decoded : decode (opcodeAt f.machine.vm.memory pc) =
    some (.ldKey x)) : Leaves P elides (f.state pc)
      ((seq (Build.callHostOp pc .loadOnKey) .ret).run P f) := by
  obtain rfl := decode_operands decoded
  rw [callHostOp_ret]
  show Leaves P elides _ ((Machine.loadOnKey P (f.machine.mapVM fun vm => vm.setPc pc)).map _)
  unfold Machine.loadOnKey
  dsimp only
  split
  · rename_i quit
    exact ⟨_, .refl, rejects_decoded decoded (bne_iff_ne.mp quit)⟩
  · rename_i stays
    exact .single (.decoded decoded (if_neg stays))

theorem store_leaves {h : Helper} (store : StoresBy i h)
    (decoded : decode (opcodeAt f.machine.vm.memory pc) = some i) :
    Leaves P elides (f.state pc) ((seq (Build.callHostOp pc h) .ret).run P f) := by
  have operands := decode_operands decoded
  rw [callHostOp_ret]
  cases store with
  | bcd x | save x =>
    cases operands
    refine .single (.decoded decoded ?_)
    simp only [Machine.storeBcd, Machine.saveRegisters, Machine.advance, Machine.mapVM, noteStore_vm,
      noteStore_env]
    rfl

theorem stop_leaves (decoded : decode (opcodeAt f.machine.vm.memory pc) = some i) {body : Code}
    (emitted : emitOf (gccBuild bench elides) ((gccBuild bench elides).idleWait memory) pcBlock pc
      fusedOp opCount i = .stop body) : Leaves P elides (f.state pc) (body.run P f) := by
  cases i with
  | jp nnn =>
    simp only [emitOf, Build.emitJump, Build.terminal] at emitted
    split at emitted
    · cases emitted
      exact (closed_leaves f).head (.single (jump_interleaves decoded))
    split at emitted
    · cases emitted
    · cases emitted
      exact jump_leaves decoded
  | ret => cases emitted; exact retern_leaves decoded
  | call nnn => cases emitted; exact call_leaves decoded
  | jpV0 nnn => cases emitted; exact .single (.decoded decoded rfl)
  | skipKey x up => cases emitted; exact skipKey_leaves decoded
  | ldKey x => cases emitted; exact loadOnKey_leaves decoded
  | bcd x => cases emitted; exact store_leaves (.bcd x) decoded
  | save x => cases emitted; exact store_leaves (.save x) decoded
  | skip c => cases emitted
  | _ => cases emitted

/-! ## Skips -/

theorem skipCond_gcc (c : SkipCond) (taken fallen : Code) :
    (seq (emitSkipCond (gccBuild bench elides) c).2.1
      (.cond (emitSkipCond (gccBuild bench elides) c).1
        (emitSkipCond (gccBuild bench elides) c).2.2.1
        (emitSkipCond (gccBuild bench elides) c).2.2.2 taken fallen)).run P f =
      if c.holds f.machine.vm then taken.run P f else fallen.run P f := by
  cases c <;> rfl

theorem fallen_leaves (fused : opcodeAt f.machine.vm.memory (pc + 2) = fusedOp) :
    Leaves P elides (f.state (pc + 2)) (((gccBuild bench elides).emitFallen
      ((gccBuild bench elides).idleWait memory) pcBlock pc fusedOp).run P f) := by
  unfold Build.emitFallen
  dsimp only
  split
  · rename_i jump
    obtain ⟨f', retired, vm, onwards⟩ := @retire_interleaves E P elides bench (pc + 2) f
    have decoded : decode (opcodeAt f'.machine.vm.memory (pc + 2)) =
        some (.jp (immediate12 fusedOp)) := by
      rw [vm, fused]
      exact decode_fused jump
    split
    · rw [List.append_assoc, seq_run, runAll_append, retired, Option.bind_some, ← seq_run]
      exact (closed_leaves f').head (onwards.tail (jump_interleaves decoded))
    · rw [seq_run, runAll_append, retired, Option.bind_some, ← seq_run]
      exact (jump_leaves decoded).head onwards
  · exact .refl

theorem closing_leaves {rest : Code}
    (closing : rest = .goto t ∨ rest = closeLoop (gccBuild bench elides) memory t) (f : Frame E) :
    Leaves P elides (f.state t) (rest.run P f) := by
  rcases closing with rfl | rfl
  · exact Relation.ReflTransGen.refl
  · exact closed_leaves f

theorem skip_leaves {c : SkipCond}
    (decoded : decode (opcodeAt f.machine.vm.memory pc) = some (.skip c))
    (fused : opcodeAt f.machine.vm.memory (pc + 2) = fusedOp) {rest : Code}
    (going : ∀ f : Frame E, Leaves P elides (f.state (pc + 4)) (rest.run P f)) :
    Leaves P elides (f.state pc) ((seq (emitSkipCond (gccBuild bench elides) c).2.1
      (.cond (emitSkipCond (gccBuild bench elides) c).1
        (emitSkipCond (gccBuild bench elides) c).2.2.1
        (emitSkipCond (gccBuild bench elides) c).2.2.2 (seq [.setPc (.const (pc + 4))] rest)
        ((gccBuild bench elides).emitFallen ((gccBuild bench elides).idleWait memory) pcBlock pc
          fusedOp))).run P f) := by
  have holds : c.holds (f.machine.vm.setPc pc) = c.holds f.machine.vm := by cases c <;> rfl
  have decides : Insn.exec P.quiet (opcodeAt f.machine.vm.memory pc) (.skip c) (f.state pc) =
      Interpreter.skipIf (c.holds f.machine.vm) (f.state pc) :=
    congrArg (fun h => Interpreter.skipIf h (f.state pc)) holds
  rw [skipCond_gcc]
  cases taken : c.holds f.machine.vm with
  | true =>
    have twice : pc + 2 + 2 = pc + 4 := by rw [BitVec.add_assoc]; rfl
    have skipped : Move P elides (f.state pc) (f.state (pc + 2 + 2)) :=
      .decoded decoded (by rw [taken] at decides; exact decides)
    rw [twice] at skipped
    exact (going _).head (.single skipped)
  | false =>
    have passed : Move P elides (f.state pc) (f.state (pc + 2)) :=
      .decoded decoded (by rw [taken] at decides; exact decides)
    exact (fallen_leaves fused).head (.single passed)

/-! ## Runs of the dispatcher -/

theorem block_leaves {code : Code} (block : BlockOf (gccBuild bench elides) memory pc code)
    (agrees : ∀ byte v, (byte, v) ∈ passReads memory pc →
      f.machine.vm.memory byte = memory byte) :
    Leaves P elides (f.state pc) (code.run P f) := by
  have here : opcodeAt f.machine.vm.memory pc = opcodeAt memory pc :=
    opcodeAt_congr fun byte v read => agrees byte v (List.mem_append_left _ read)
  cases block with
  | @stop pcBlock opCount i body decoded emitted =>
    obtain ⟨f', entered, vm, onwards⟩ := @prologue_interleaves E P elides bench pc opCount f
    rw [seq_run, entered]
    exact (stop_leaves (by rw [vm, here]; exact decoded) emitted).head onwards
  | @next pcBlock opCount i pc' body rest decoded emitted closing =>
    obtain ⟨f', entered, vm, onwards⟩ := @prologue_interleaves E P elides bench pc opCount f
    rw [seq_run, entered]
    refine Leaves.head onwards ?_
    show Leaves P elides (f'.state pc) ((body rest).run P f')
    by_cases skip : ∃ c, i = .skip c
    · obtain ⟨c, rfl⟩ := skip
      cases emitted
      refine skip_leaves (by rw [vm, here]; exact decoded) ?_ (closing_leaves closing)
      rw [vm]
      refine opcodeAt_congr fun byte v read => agrees byte v (List.mem_append_right _ ?_)
      rw [if_pos (isSkip_of_decode decoded)]
      exact read
    · obtain ⟨g, goes, moved⟩ := @next_interleaves E P elides bench memory pcBlock pc _ opCount i f'
        (by rw [vm, here]; exact decoded) (fun c same => skip ⟨c, same⟩) pc' body emitted
      rw [goes]
      exact (closing_leaves closing g).head moved

end

section
variable {E : Type} (P : Host E) (elides : Bool)

/-- An interleaving from `s` leads to the machine of `d`. Within a trace the program counter is
where the trace is; a dispatcher stopped by `errer` is where the interpreter fails. -/
def Accounts (s : State E) (d : Dispatcher E) : Prop :=
  match d.position with
  | .running _ pc => Interleaves P elides s ⟨d.machine.vm.setPc pc, d.machine.env⟩
  | .backedge _ pc =>
    Interleaves P elides s ⟨d.machine.vm, d.machine.env⟩ ∧ d.machine.vm.programCounter = pc
  | .stopped .errer => ∃ t, Interleaves P elides s t ∧ Rejects P.quiet t
  | _ => Interleaves P elides s ⟨d.machine.vm, d.machine.env⟩

variable {P} {elides}

theorem leave_accounts {s : State E} {d : Dispatcher E} {t : Trace} {m : Machine E} {exit : Exit}
    (leaves : Leaves P elides s (some (m, exit))) :
    Accounts P elides s { d with machine := m, position := Dispatcher.leave t exit } := by
  cases exit with
  | goto pc => exact leaves
  | backedge pc => exact leaves
  | ret => exact leaves

theorem service_accounts {s : State E} {d : Dispatcher E}
    (reached : Interleaves P elides s ⟨d.machine.vm, d.machine.env⟩) :
    Accounts P elides s (d.service P) := by
  have polled : Interleaves P elides ⟨d.machine.vm, d.machine.env⟩
      ⟨d.machine.vm, (P.allKeysDown (P.checkInterrupt d.machine.env)).2⟩ :=
    .head (.service _ (.checkInterrupt _)) (.single (.service _ (.poll _)))
  have env : (d.service P).machine.env = (P.allKeysDown (P.checkInterrupt d.machine.env)).2 := by
    unfold Dispatcher.service Machine.mapEnv Dispatcher.invalidateTraces
    dsimp only
    split <;> split <;> rfl
  have served : Interleaves P elides s ⟨(d.service P).machine.vm, (d.service P).machine.env⟩ := by
    rw [service_vm, env]
    exact reached.trans polled
  unfold Accounts
  rcases service_position P d with at_ | at_ <;> rw [at_] <;> exact served

theorem step_accounts {bench : Bool} {s : State E} {d d' : Dispatcher E}
    (coherent : Coherent (gccBuild bench elides) d) (accounts : Accounts P elides s d)
    (next : Dispatcher.step P (gccBuild bench elides) d = some d') : Accounts P elides s d' := by
  unfold Dispatcher.step at next
  unfold Accounts at accounts
  cases here : d.position with
  | top =>
    rw [here] at next accounts
    dsimp only at next accounts
    split at next
    · cases next
      rcases compile_cases (gccBuild bench elides) d with ⟨rest, blocks, -, same⟩ | ⟨-, same⟩
      · rw [same, Accounts]
        dsimp only
        rw [here]
        exact accounts
      · rw [same]
        exact accounts
    · rename_i t hit
      cases next
      show Interleaves P elides s ⟨d.machine.vm.setPc t.start, d.machine.env⟩
      rw [(coherent.traced _ t hit).1]
      exact accounts
  | running t pc =>
    rw [here] at next accounts
    obtain ⟨code, found, rest⟩ := Option.bind_eq_some_iff.mp next
    obtain ⟨memory, block, agrees⟩ := coherent.block _ here found
    -- What the block did is an interleaving of the interpreter from where it was entered.
    have leaves := (@block_leaves E P elides bench memory pc ⟨d.machine, fun _ => 0#8⟩ code block
      agrees).head accounts
    cases ran : code.run P ⟨d.machine, fun _ => 0#8⟩ with
    | none =>
      rw [ran] at rest leaves
      cases rest
      exact leaves
    | some out =>
      rw [ran] at rest leaves
      cases rest
      exact leave_accounts leaves
  | backedge t pc =>
    rw [here] at next accounts
    obtain ⟨reached, stored⟩ := accounts
    dsimp only at next
    split at next
    · cases next
      exact reached
    · cases next
      show Interleaves P elides s ⟨d.machine.vm.setPc pc, d.machine.env⟩
      rw [← stored]
      exact reached
  | returned =>
    rw [here] at next accounts
    cases next
    exact service_accounts accounts
  | stopped why => rw [here] at next; cases next

theorem SameState.accounts {s : State E} {d d' : Dispatcher E} (same : SameState P d d')
    (accounts : Accounts P elides s d) : Accounts P elides s d' := by
  obtain ⟨m, _, _, _, _, position⟩ := d
  obtain ⟨m', _, _, _, _, position'⟩ := d'
  obtain ⟨rfl, -, -, -, -, at_⟩ := same
  cases at_ with
  | stopped why => cases why <;> exact accounts
  | _ => exact accounts

end

/-- The machine of a JIT is, after every step of the dispatcher, one to which instructions of the
interpreter lead, between which the host has been serviced. It is so for both generators, on any
host, with `BENCH` and without, and the only thing else that happens to it is the wait that
`--elide-idle` makes of a loop. Where a helper has called `errer` the interpreter fails. -/
theorem jit_interleaves {E : Type} (P : Host E) (b : Build) (vm : VM) (env : E) {n : Nat}
    {d : Dispatcher E} (run : Run.after (Dispatcher.step P b) n (start vm env) = some d) :
    Accounts P b.elideIdle ⟨vm, env⟩ d := by
  have gcc {d : Dispatcher E} (run : Run.after
      (Dispatcher.step P (gccBuild b.bench b.elideIdle)) n (start vm env) = some d) :
      Accounts P b.elideIdle ⟨vm, env⟩ d := by
    have keeps (d d' : Dispatcher E) (both : Coherent (gccBuild b.bench b.elideIdle) d ∧
        Accounts P b.elideIdle ⟨vm, env⟩ d)
        (next : Dispatcher.step P (gccBuild b.bench b.elideIdle) d = some d') :
        Coherent (gccBuild b.bench b.elideIdle) d' ∧ Accounts P b.elideIdle ⟨vm, env⟩ d' :=
      ⟨step_coherent P _ both.1 next, step_accounts both.1 both.2 next⟩
    exact (Run.invariant keeps ⟨start_coherent _ vm env, .refl⟩ run).2
  obtain ⟨backend, bench, elideIdle⟩ := b
  cases backend with
  | libgccjit => exact gcc run
  | llvm =>
    -- LLVM's dispatcher is where that of libgccjit is.
    have same : SameState P (start vm env) (start vm env) :=
      ⟨rfl, fun _ => .none, rfl, rfl, rfl, .top⟩
    have both := Run.lockstep (fun _ _ => @SameState.step E P bench elideIdle _ _) same n
    rw [show Run.after (Dispatcher.step P (llvmBuild bench elideIdle)) n (start vm env) = some d
      from run] at both
    generalize reached : Run.after _ n (start vm env) = o at both
    cases both with
    | some same => exact same.accounts (gcc reached)

/-- `LD V0, DT; SE V0, 0; JP 0x200; JP 0x206`. -/
def pollsTimer : List Byte := [0xf0, 0x07, 0x30, 0x00, 0x12, 0x00, 0x12, 0x06]

/-- The interactive JIT waits that loop out at the jump folded into the skip. -/
theorem jit_interleaves_pollsTimer :
    ∃ d t, Run.after (Dispatcher.step quietHost ⟨.llvm, false, true⟩) 4
        (start (VM.boot pollsTimer) { powerOn 100 6400 .rotate 0#8 0#8 with delayTimer := 5#8 }) =
          some d ∧ d.position = .backedge t 0x200#16 ∧ d.machine.vm.regs 0#4 = 0#8 ∧
      Accounts quietHost true
        ⟨VM.boot pollsTimer, { powerOn 100 6400 .rotate 0#8 0#8 with delayTimer := 5#8 }⟩ d := by
  have run : Run.after (Dispatcher.step quietHost ⟨.llvm, false, true⟩) 4
      (start (VM.boot pollsTimer) { powerOn 100 6400 .rotate 0#8 0#8 with delayTimer := 5#8 }) =
        some _ := rfl
  exact ⟨_, _, run, rfl, rfl, jit_interleaves quietHost ⟨.llvm, false, true⟩ _ _ run⟩

end ChipEight.Jit
