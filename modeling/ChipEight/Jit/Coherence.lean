import ChipEight.Jit.BenchHost
import ChipEight.Jit.Dispatcher
import ChipEight.Jit.Stores

/-! Self-modifying code: a trace is only run while the bytes it was compiled from
are unchanged.

Three pieces of state have to agree, each updated in its own place: memory, the
code bytes, and the trace cache. `Coherent` says how, every step of the dispatcher
keeps it, and `coherence` reads the behaviour of the cache off it.
-/

set_option autoImplicit false

namespace ChipEight
namespace Jit

/-! ## The invariant of the dispatcher -/

section
variable {E : Type} (P : Host E) (b : Build)

/-- The trace is what `codegen` made of some memory at its start. -/
def Traced (t : Trace) : Prop :=
  ∃ memory rest, (codegen b memory t.start).outcome = .code rest t.blocks ∧
    (codegen b memory t.start).reads = t.reads

/-- Every byte read for a cached trace still has the value it was compiled with. -/
def Fresh (d : Dispatcher E) : Prop :=
  ∀ p t, d.cache p = some t → ∀ a v, (a, v) ∈ t.reads → d.machine.vm.memory a = v

/-- The bytes some cached trace was compiled from. -/
def Depends (d : Dispatcher E) (a : Addr) : Prop :=
  ∃ p t, d.cache p = some t ∧ a ∈ t.reads.map Prod.fst

structure Coherent (d : Dispatcher E) : Prop where
  traced : ∀ p t, d.cache p = some t → t.start = p ∧ Traced b t
  fresh : d.machine.smcPending = false → Fresh d
  settled : d.position ≠ .returned → d.machine.smcPending = false
  /-- A failed compilation leaves marks behind, but then the run is over. -/
  marked : d.position ≠ .stopped .codegenFailed → ∀ a, d.machine.codeBytes a = true ↔ Depends d a
  current : ∀ t a, d.position = .running t a ∨ d.position = .backedge t a →
    d.cache t.start = some t ∧ a ∈ t.blocks.map Prod.fst

theorem start_coherent (vm : VM) (env : E) : Coherent b (start vm env) where
  traced _ _ hit := by cases hit
  fresh _ _ _ hit := by cases hit
  settled _ := rfl
  marked _ a := by simp [start, Depends]
  current _ _ inside := by rcases inside with at_ | at_ <;> cases at_

theorem Traced.compiled {t : Trace} (traced : Traced b t) :
    ∃ memory rest, Compiled b memory t.start [] (codegen b memory t.start) rest t.blocks ∧
      (codegen b memory t.start).reads = t.reads := by
  obtain ⟨memory, rest, made, reads⟩ := traced
  exact ⟨memory, rest, codegenLoop_compiled b memory made, reads⟩

theorem Traced.start_mem {t : Trace} (traced : Traced b t) :
    t.start ∈ t.blocks.map Prod.fst := by
  obtain ⟨memory, rest, compiled, -⟩ := traced.compiled
  rcases compiled.entry with ⟨-, mem⟩ | ⟨-, none⟩
  · exact mem
  · cases none

theorem Traced.block {t : Trace} (traced : Traced b t) {a : Word} {code : Code}
    (found : t.block a = some code) :
    ∃ memory, BlockOf b memory a code ∧ passReads memory a ⊆ t.reads ∧
      ∀ p ∈ code.targets, p ∈ t.blocks.map Prod.fst := by
  obtain ⟨memory, rest, compiled, reads⟩ := traced.compiled
  have mem : (a, code) ∈ t.blocks := by
    obtain ⟨before, later, split, -⟩ := List.lookup_eq_some_iff.mp found
    exact split ▸ List.mem_append_right _ List.mem_cons_self
  refine ⟨memory, compiled.built a code mem, reads ▸ compiled.logged a code mem, ?_⟩
  intro p target
  rcases compiled.closed a code mem p target with none | inside
  · cases none
  · exact inside

/-- The block an exit leads to inside the trace. -/
def Exit.inside : Exit → Option Word
  | .goto pc => some pc
  | .backedge pc => some pc
  | .ret => none

theorem Code.run_targets {c : Code} {f : Frame E} {m : Machine E} {exit : Exit} {p : Word}
    (ran : c.run P f = some (m, exit)) (goes : exit.inside = some p) : p ∈ c.targets := by
  induction c generalizing f with
  | op o k ih =>
    obtain ⟨f', -, later⟩ := Option.bind_eq_some_iff.mp ran
    exact ih later
  | cond c a b taken fallen ihTaken ihFallen =>
    simp only [Code.run] at ran
    split at ran
    · exact List.mem_append_left _ (ihTaken ran)
    · exact List.mem_append_right _ (ihFallen ran)
  | goto pc => cases ran; cases goes; exact List.mem_singleton_self _
  | backedge pc => cases ran; cases goes; exact List.mem_singleton_self _
  | ret => cases ran; cases goes

/-- `codegen` returns code or `NULL`; the model's bound is never reached. -/
theorem compile_cases (d : Dispatcher E) :
    let r := codegen b d.machine.vm.memory d.machine.vm.programCounter
    let m := Dispatcher.markRead r.marks d.machine
    (∃ rest blocks, r.outcome = .code rest blocks ∧ d.compile b = { d with
      machine := m
      cache := Function.update d.cache d.machine.vm.programCounter
        (some ⟨d.machine.vm.programCounter, blocks, r.reads⟩)
      compiled := d.compiled + 1 }) ∨
    r.outcome = .bail ∧ d.compile b = { d with machine := m, position := .stopped .codegenFailed } := by
  dsimp only
  have ends := codegen_terminates b d.machine.vm.memory d.machine.vm.programCounter
  simp only [Dispatcher.compile]
  cases made : (codegen b d.machine.vm.memory d.machine.vm.programCounter).outcome with
  | bail => exact .inr ⟨rfl, rfl⟩
  | code rest blocks => exact .inl ⟨rest, blocks, rfl, rfl⟩
  | outOfFuel => exact absurd made ends

theorem markRead_codeBytes (memory : Memory) (pc : Word) (m : Machine E) (a : Addr) :
    (Dispatcher.markRead (codegen b memory pc).marks m).codeBytes a = true ↔
      a ∈ (codegen b memory pc).reads.map Prod.fst ∨ m.codeBytes a = true := by
  have same : (codegen b memory pc).marks = (codegen b memory pc).reads.map Prod.fst :=
    codegenLoop_marks b memory _ _ _ _
  simp only [Dispatcher.markRead, Bool.or_eq_true, List.contains_iff_mem, same]

theorem compile_coherent {d : Dispatcher E} (coherent : Coherent b d) (top : d.position = .top)
    (miss : d.cache d.machine.vm.programCounter = none) : Coherent b (d.compile b) := by
  have clear : d.machine.smcPending = false := coherent.settled (by simp [top])
  have nowhere : ∀ t a, ¬ (d.position = .running t a ∨ d.position = .backedge t a) := by
    simp [top]
  rcases compile_cases b d with ⟨rest, blocks, made, same⟩ | ⟨-, same⟩
  · rw [same]
    generalize home : d.machine.vm.programCounter = pc at *
    generalize trace : (⟨pc, blocks, (codegen b d.machine.vm.memory pc).reads⟩ : Trace) = t at *
    have reads : t.reads = (codegen b d.machine.vm.memory pc).reads := by rw [← trace]
    have cases : ∀ p u, Function.update d.cache pc (some t) p = some u →
        p = pc ∧ u = t ∨ d.cache p = some u := by
      intro p u found
      by_cases here : p = pc
      · subst here
        rw [Function.update_self, Option.some.injEq] at found
        exact .inl ⟨rfl, found.symm⟩
      · rw [Function.update_of_ne here] at found
        exact .inr found
    refine ⟨?_, ?_, fun _ => clear, ?_, ?_⟩
    · intro p u found
      rcases cases p u found with ⟨rfl, rfl⟩ | old
      · rw [← trace]
        exact ⟨rfl, d.machine.vm.memory, rest, made, rfl⟩
      · exact coherent.traced p u old
    · intro _ p u found a v read
      rcases cases p u found with ⟨rfl, rfl⟩ | old
      · rw [reads] at read
        exact codegenLoop_reads b _ read
      · exact coherent.fresh clear p u old a v read
    · intro _ a
      rw [markRead_codeBytes, coherent.marked (by simp [top])]
      constructor
      · rintro (new | ⟨p, u, found, read⟩)
        · exact ⟨pc, t, Function.update_self _ _ _, reads ▸ new⟩
        · refine ⟨p, u, ?_, read⟩
          -- The cache had no trace at `pc`, so none is lost.
          rw [← found]
          exact Function.update_of_ne (fun here => by simp [here, miss] at found) _ _
      · rintro ⟨p, u, found, read⟩
        rcases cases p u found with ⟨rfl, rfl⟩ | old
        · exact .inl (reads ▸ read)
        · exact .inr ⟨p, u, old, read⟩
    · intro u a inside
      exact absurd inside (nowhere u a)
  · rw [same]
    refine ⟨coherent.traced, fun _ => coherent.fresh clear, fun _ => clear, ?_, ?_⟩
    · intro going
      exact absurd rfl going
    · intro u a inside
      rcases inside with at_ | at_ <;> cases at_

theorem run_coherent {d : Dispatcher E} {t : Trace} {a : Word} {code : Code} {m : Machine E}
    {exit : Exit} (coherent : Coherent b d) (here : d.position = .running t a)
    (found : t.block a = some code) (ran : code.run P ⟨d.machine, fun _ => 0#8⟩ = some (m, exit)) :
    Coherent b { d with machine := m, position := Dispatcher.leave t exit } := by
  have clear : d.machine.smcPending = false := coherent.settled (by simp [here])
  have marked := coherent.marked (by simp [here])
  obtain ⟨cached, -⟩ := coherent.current t a (.inl here)
  obtain ⟨memory, block, -, targets⟩ := (coherent.traced _ _ cached).2.block b found
  have guarded : Guards d.machine m := Code.run_guards P ran
  refine ⟨coherent.traced, ?_, ?_, ?_, ?_⟩
  · intro quiet p u inCache byte v read
    have isCode : d.machine.codeBytes byte = true :=
      (marked byte).mpr ⟨p, u, inCache, List.mem_map_of_mem read⟩
    exact (guarded.memory quiet byte isCode).trans (coherent.fresh clear p u inCache byte v read)
  · intro going
    have inside : exit ≠ .ret := by
      rintro rfl
      exact going rfl
    have watched := Code.run_watch P block.storesLast ran inside
    simp only [Machine.watch, Prod.mk.injEq] at watched
    exact watched.2.2.trans clear
  · intro _ byte
    rw [guarded.codeBytes]
    exact marked byte
  · intro u p inside
    have lands : ∀ p, exit.inside = some p → p ∈ t.blocks.map Prod.fst := fun p goes =>
      targets p (Code.run_targets P ran goes)
    cases exit with
    | ret => rcases inside with at_ | at_ <;> cases at_
    | goto q | backedge q =>
      rcases inside with at_ | at_ <;> cases at_
      exact ⟨cached, lands p rfl⟩

/-! ### The end of the main loop's body -/

theorem service_eq (d : Dispatcher E) :
    ∃ env position count, (position = .top ∨ position = .stopped .quit) ∧
      d.service P = { (if d.machine.smcPending then d.invalidateTraces else d) with
        machine := ⟨d.machine.vm, env,
          if d.machine.smcPending then fun _ => false else d.machine.codeBytes, false⟩
        position := position
        traceCount := count } := by
  cases pending : d.machine.smcPending with
  | true =>
    simp only [Dispatcher.service, Machine.mapEnv, pending, if_true]
    split
    · exact ⟨_, _, d.traceCount, .inr rfl, rfl⟩
    · exact ⟨_, _, d.traceCount + 1, .inl rfl, rfl⟩
  | false =>
    simp only [Dispatcher.service, Machine.mapEnv, pending, Bool.false_eq_true, if_false]
    split
    · exact ⟨_, _, d.traceCount, .inr rfl, rfl⟩
    · exact ⟨_, _, d.traceCount + 1, .inl rfl, rfl⟩

theorem service_vm (d : Dispatcher E) : (d.service P).machine.vm = d.machine.vm := by
  obtain ⟨env, position, count, -, same⟩ := service_eq P d
  rw [same]

theorem service_cache (d : Dispatcher E) :
    (d.service P).cache = if d.machine.smcPending then fun _ => none else d.cache := by
  obtain ⟨env, position, count, -, same⟩ := service_eq P d
  rw [same]
  split <;> rfl

theorem service_codeBytes (d : Dispatcher E) :
    (d.service P).machine.codeBytes =
      if d.machine.smcPending then fun _ => false else d.machine.codeBytes := by
  obtain ⟨env, position, count, -, same⟩ := service_eq P d
  rw [same]

theorem service_flushes (d : Dispatcher E) :
    (d.service P).flushes = if d.machine.smcPending then d.flushes + 1 else d.flushes := by
  obtain ⟨env, position, count, -, same⟩ := service_eq P d
  rw [same]
  split <;> rfl

theorem service_smcPending (d : Dispatcher E) : (d.service P).machine.smcPending = false := by
  obtain ⟨env, position, count, -, same⟩ := service_eq P d
  rw [same]

theorem service_position (d : Dispatcher E) :
    (d.service P).position = .top ∨ (d.service P).position = .stopped .quit := by
  obtain ⟨env, position, count, at_, same⟩ := service_eq P d
  rw [same]
  exact at_

theorem service_coherent {d : Dispatcher E} (coherent : Coherent b d)
    (here : d.position = .returned) : Coherent b (d.service P) := by
  have going : d.position ≠ .stopped .codegenFailed := by simp [here]
  have outside : ∀ t a, ¬ ((d.service P).position = .running t a ∨
      (d.service P).position = .backedge t a) := by
    intro t a
    rcases service_position P d with at_ | at_ <;> simp [at_]
  cases pending : d.machine.smcPending with
  | true =>
    refine ⟨?_, ?_, fun _ => service_smcPending P d, ?_, fun t a inside => absurd inside (outside t a)⟩
    · intro p t found
      simp [service_cache, pending] at found
    · intro _ p t found
      simp [service_cache, pending] at found
    · intro _ a
      simp [service_codeBytes, service_cache, Depends, pending]
  | false =>
    have cache : (d.service P).cache = d.cache := by simp [service_cache, pending]
    refine ⟨?_, ?_, fun _ => service_smcPending P d, ?_, fun t a inside => absurd inside (outside t a)⟩
    · rw [cache]
      exact coherent.traced
    · intro _
      rw [Fresh, cache, service_vm]
      exact coherent.fresh pending
    · intro _ a
      simp only [service_codeBytes, Depends, cache, pending, Bool.false_eq_true, if_false]
      exact coherent.marked going a

theorem step_coherent {d d' : Dispatcher E} (coherent : Coherent b d)
    (next : Dispatcher.step P b d = some d') : Coherent b d' := by
  unfold Dispatcher.step at next
  cases here : d.position with
  | top =>
    rw [here] at next
    dsimp only at next
    cases hit : d.cache d.machine.vm.programCounter with
    | none =>
      rw [hit] at next
      cases next
      exact compile_coherent b coherent here hit
    | some t =>
      rw [hit] at next
      cases next
      -- Nothing is written, so only that the trace entered is the cached one is new.
      obtain ⟨start, traced⟩ := coherent.traced _ t hit
      have clear := coherent.settled (by simp [here])
      refine ⟨coherent.traced, coherent.fresh, fun _ => clear,
        fun _ => coherent.marked (by simp [here]), ?_⟩
      intro u a inside
      rcases inside with at_ | at_ <;> cases at_
      exact ⟨start ▸ hit, traced.start_mem⟩
  | running t a =>
    rw [here] at next
    obtain ⟨code, found, rest⟩ := Option.bind_eq_some_iff.mp next
    cases ran : code.run P ⟨d.machine, fun _ => 0#8⟩ with
    | none =>
      rw [ran] at rest
      cases rest
      refine ⟨coherent.traced, coherent.fresh, fun _ => coherent.settled (by simp [here]),
        fun _ => coherent.marked (by simp [here]), ?_⟩
      intro u p inside
      rcases inside with at_ | at_ <;> cases at_
    | some out =>
      rw [ran] at rest
      cases rest
      exact run_coherent P b coherent here found ran
  | backedge t a =>
    rw [here] at next
    have current := coherent.current t a (.inr here)
    have clear := coherent.settled (by simp [here])
    dsimp only at next
    split at next
    · cases next
      refine ⟨coherent.traced, coherent.fresh, fun _ => clear,
        fun _ => coherent.marked (by simp [here]), ?_⟩
      intro u p inside
      rcases inside with at_ | at_ <;> cases at_
    · cases next
      refine ⟨coherent.traced, coherent.fresh, fun _ => clear,
        fun _ => coherent.marked (by simp [here]), ?_⟩
      intro u p inside
      rcases inside with at_ | at_ <;> cases at_
      exact current
  | returned =>
    rw [here] at next
    cases next
    exact service_coherent P b coherent here
  | stopped why =>
    rw [here] at next
    cases next

theorem reachable_coherent {vm : VM} {env : E} {d : Dispatcher E}
    (reached : Run.Reaches (Dispatcher.step P b) (start vm env) d) : Coherent b d :=
  reached.invariant (fun _ _ => step_coherent P b) (start_coherent b vm env)

theorem Coherent.block_isSome {d : Dispatcher E} (coherent : Coherent b d) {t : Trace} {a : Word}
    (here : d.position = .running t a) : ∃ code, t.block a = some code := by
  obtain ⟨-, mem⟩ := coherent.current t a (.inl here)
  obtain ⟨entry, inBlocks, rfl⟩ := List.mem_map.mp mem
  rw [← Option.isSome_iff_exists]
  exact List.lookup_isSome_iff.mpr ⟨entry, inBlocks, beq_self_eq_true _⟩

/-- A run only ends where the program does: no branch of a trace leads nowhere. -/
theorem step_isSome {d : Dispatcher E} (coherent : Coherent b d)
    (going : ∀ why, d.position ≠ .stopped why) : (Dispatcher.step P b d).isSome := by
  unfold Dispatcher.step
  cases here : d.position with
  | top => dsimp only; split <;> rfl
  | running t a =>
    obtain ⟨code, found⟩ := coherent.block_isSome b here
    simp only [found, Option.bind_eq_bind, Option.bind_some]
    split <;> rfl
  | backedge t a => dsimp only; split <;> rfl
  | returned => rfl
  | stopped why => exact absurd here (going why)

/-! ## Stores and flushes -/

theorem prologue_run (opCount : Nat) (f : Frame E) :
    ∃ env, runAll P (prologue b opCount) f =
      some { f with machine := { f.machine with env := env } } := by
  have retired : ∀ f : Frame E, ∃ env, runAll P (b.retire 1) f =
      some { f with machine := { f.machine with env := env } } := by
    intro f
    unfold Build.retire
    split
    · exact ⟨_, rfl⟩
    · exact ⟨f.machine.env, rfl⟩
  unfold prologue
  rw [runAll_append]
  split
  · exact retired (f.mapEnv P.safepoint)
  · exact retired f

theorem callHostOp_run (pc : Word) (h : Helper) (f : Frame E) :
    runAll P (Build.callHostOp pc h) f =
      (h.run P (f.machine.mapVM fun vm => vm.setPc pc)).map fun m => { f with machine := m } := by
  simp only [Build.callHostOp, runAll, Op.run, Option.bind_some]
  cases called : h.run P (f.machine.mapVM fun vm => vm.setPc pc) with
  | none => exact congrArg (fun r => (Option.map _ r).bind _) called
  | some m => exact congrArg (fun r => (Option.map _ r).bind _) called

theorem Coherent.block {d : Dispatcher E} (coherent : Coherent b d) {t : Trace} {a : Word}
    (here : d.position = .running t a) {code : Code} (found : t.block a = some code) :
    ∃ memory, BlockOf b memory a code ∧ ∀ byte v, (byte, v) ∈ passReads memory a →
      d.machine.vm.memory byte = memory byte := by
  have clear : d.machine.smcPending = false := coherent.settled (by simp [here])
  obtain ⟨cached, -⟩ := coherent.current t a (.inl here)
  obtain ⟨memory, block, logged, -⟩ := (coherent.traced _ _ cached).2.block b found
  refine ⟨memory, block, fun byte v read => ?_⟩
  rw [coherent.fresh clear _ _ cached byte v (logged read), passReads_value memory read]

theorem agreeing_opcode {d : Dispatcher E} {memory : Memory} {a : Word}
    (agree : ∀ byte v, (byte, v) ∈ passReads memory a →
      d.machine.vm.memory byte = memory byte) :
    opcodeAt d.machine.vm.memory a = opcodeAt memory a :=
  opcodeAt_congr fun byte v read => agree byte v (List.mem_append_left _ read)

/-- The two instructions that store into memory, with the helper each is compiled to. -/
inductive StoresBy : Insn → Helper → Prop
  | bcd (x : Reg) : StoresBy (.bcd x) .storeBcd
  | save (x : Reg) : StoresBy (.save x) .saveRegisters

/-- The block of a store, from the dispatcher's side: it returns, and a flush is
pending exactly if one of the bytes it writes is marked. -/
theorem store_run {memory : Memory} {a : Word} {code : Code} {i : Insn} {h : Helper}
    (store : StoresBy i h) (block : BlockOf b memory a code)
    (decoded : decode (opcodeAt memory a) = some i) {m : Machine E}
    (same : opcodeAt m.vm.memory a = opcodeAt memory a) (clear : m.smcPending = false) :
    ∃ m', code.run P ⟨m, fun _ => 0#8⟩ = some (m', .ret) ∧ m'.codeBytes = m.codeBytes ∧
      m'.smcPending = (i.written m.vm.addr).any m.codeBytes := by
  have emission : ∀ pcBlock fusedOp opCount,
      emitOf b (b.idleWait memory) pcBlock a fusedOp opCount i =
        .stop (seq (Build.callHostOp a h) .ret) := by
    intros
    cases store <;> rfl
  have shape : ∃ opCount, code = seq (prologue b opCount) (seq (Build.callHostOp a h) .ret) := by
    cases block with
    | @stop pcBlock opCount j body decodedJ emitted =>
      cases decoded.symm.trans decodedJ
      rw [emission] at emitted
      cases emitted
      exact ⟨opCount, rfl⟩
    | next decodedJ emitted closing =>
      cases decoded.symm.trans decodedJ
      rw [emission] at emitted
      cases emitted
  obtain ⟨opCount, rfl⟩ := shape
  obtain ⟨env, entered⟩ := prologue_run P b opCount ⟨m, fun _ => 0#8⟩
  rw [seq_run, entered, Option.bind_some, seq_run, callHostOp_run]
  have operands := decode_operands (same ▸ decoded)
  have pending : ∀ n, (Machine.noteStore m.vm.addr n
      { m with env := env, vm := m.vm.setPc a }).smcPending = (span m.vm.addr n).any m.codeBytes := by
    intro n
    rw [noteStore_pending]
    exact (congrArg (· || _) clear).trans (Bool.false_or _)
  cases store with
  | bcd x => exact ⟨_, rfl, noteStore_codeBytes _ _ _, pending 3⟩
  | save x =>
    cases operands
    exact ⟨_, rfl, noteStore_codeBytes _ _ _, pending _⟩

theorem store_flushes {d : Dispatcher E} (coherent : Coherent b d) {t : Trace} {a : Word}
    (here : d.position = .running t a) {i : Insn} {h : Helper} (store : StoresBy i h)
    (decoded : decode (opcodeAt d.machine.vm.memory a) = some i) :
    ∃ d' d'', Dispatcher.step P b d = some d' ∧ d'.position = .returned ∧
      Dispatcher.step P b d' = some d'' ∧
      ((∃ byte ∈ i.written d.machine.vm.addr, Depends d byte) ∧
          d''.flushes = d.flushes + 1 ∧ d''.cache = (fun _ => none) ∨
        (¬ ∃ byte ∈ i.written d.machine.vm.addr, Depends d byte) ∧
          d''.flushes = d.flushes ∧ d''.cache = d.cache) := by
  obtain ⟨code, found⟩ : ∃ code, t.block a = some code := coherent.block_isSome b here
  obtain ⟨memory, block, agree⟩ := coherent.block b here found
  have same := agreeing_opcode agree
  have clear := coherent.settled (by simp [here])
  obtain ⟨m', ran, code, pending⟩ := store_run P b store block (same ▸ decoded) same clear
  refine ⟨{ d with machine := m', position := .returned }, _, ?_, rfl, rfl, ?_⟩
  · simp only [Dispatcher.step, here, found, Option.bind_eq_bind, Option.bind_some, ran]
    rfl
  · have hit : m'.smcPending = true ↔ ∃ byte ∈ i.written d.machine.vm.addr, Depends d byte := by
      rw [pending, List.any_eq_true]
      simp only [coherent.marked (by simp [here])]
    rw [service_flushes, service_cache, ← hit]
    cases m'.smcPending <;> simp

/-- Wherever a trace may be called or goes on, no byte read for a cached trace has
changed since it was compiled, and stores flush the cache exactly when they must. -/
theorem trace_cache_coherent {vm : VM} {env : E} {d : Dispatcher E}
    (reached : Run.Reaches (Dispatcher.step P b) (start vm env) d) :
    (d.position = .top → Fresh d) ∧
    (∀ t a, d.position = .running t a ∨ d.position = .backedge t a →
      Fresh d ∧ d.cache t.start = some t) ∧
    ∀ t a i h, d.position = .running t a → StoresBy i h →
      decode (opcodeAt d.machine.vm.memory a) = some i →
      ∃ d' d'', Dispatcher.step P b d = some d' ∧ d'.position = .returned ∧
        Dispatcher.step P b d' = some d'' ∧
        ((∃ byte ∈ i.written d.machine.vm.addr, Depends d byte) ∧
            d''.flushes = d.flushes + 1 ∧ d''.cache = (fun _ => none) ∨
          (¬ ∃ byte ∈ i.written d.machine.vm.addr, Depends d byte) ∧
            d''.flushes = d.flushes ∧ d''.cache = d.cache) := by
  have coherent := reachable_coherent P b reached
  refine ⟨?_, ?_, ?_⟩
  · intro here
    exact coherent.fresh (coherent.settled (by simp [here]))
  · intro t a inside
    have going : d.position ≠ .returned := by
      rcases inside with here | here <;> simp [here]
    exact ⟨coherent.fresh (coherent.settled going), (coherent.current t a inside).1⟩
  · intro t a i h here store decoded
    exact store_flushes P b coherent here store decoded

end

/-- `LD I, 0x202; LD B, V0`: the second instruction overwrites itself. -/
def overwritesItself : List Byte := [0xa2, 0x02, 0xf0, 0x33]

def quietHost : Host Bench := benchHost (fun _ => 0#32) (fun _ => 0#32)

/-- In that program the store is the third step, and the flush comes with the fifth. -/
theorem trace_cache_coherent_overwritesItself :
    ∃ d t i h, Run.after (Dispatcher.step quietHost ⟨.llvm, true, false⟩) 3
        (start (VM.boot overwritesItself) (Bench.initial 10 640 .none)) = some d ∧
      d.position = .running t 0x202#16 ∧ StoresBy i h ∧
      decode (opcodeAt d.machine.vm.memory 0x202#16) = some i ∧
      ∃ d' d'', Dispatcher.step quietHost ⟨.llvm, true, false⟩ d = some d' ∧
        d'.position = .returned ∧ Dispatcher.step quietHost ⟨.llvm, true, false⟩ d' = some d'' ∧
        ((∃ byte ∈ i.written d.machine.vm.addr, Depends d byte) ∧
            d''.flushes = d.flushes + 1 ∧ d''.cache = (fun _ => none) ∨
          (¬ ∃ byte ∈ i.written d.machine.vm.addr, Depends d byte) ∧
            d''.flushes = d.flushes ∧ d''.cache = d.cache) := by
  have run : Run.after (Dispatcher.step quietHost ⟨.llvm, true, false⟩) 3
      (start (VM.boot overwritesItself) (Bench.initial 10 640 .none)) = some _ := rfl
  exact ⟨_, _, .bcd 0#4, .storeBcd, run, rfl, .bcd 0#4, by decide,
    (trace_cache_coherent quietHost _ ⟨3, run⟩).2.2 _ _ (.bcd 0#4) .storeBcd rfl (.bcd 0#4) (by decide)⟩

end Jit
end ChipEight
