import ChipEight.Jit.Dispatcher
import ChipEight.Machine.Process
import Mathlib.Tactic.IntervalCases

/-! How the engines end.

The interpreter leaves its loop by `break` whatever happens. A helper of the JITs calls
`errer` instead, which exits at once; the process is shut down in order unless native
code comes to such a call.
-/

set_option autoImplicit false

namespace ChipEight.Jit

section
variable {E : Type} (P : Host E)

/-- A helper call that ends in `errer`. -/
def Helper.Refuses (m : Machine E) : Helper → Prop
  | .retern => ¬ m.vm.stackPointer > 0
  | .call => ¬ m.vm.stackPointer < (stackSize : Int)
  | .loadOnKey => (P.awaitKeys m.env).1 &&& quitBit ≠ 0#32
  | _ => False

/-- Native code comes to such a call. -/
inductive Code.Errs : Code → Frame E → Prop where
  | here {h : Helper} {k : Code} {f : Frame E} (refuses : h.Refuses P f.machine) :
      Errs (.op (.call h) k) f
  | later {o : Op} {k : Code} {f f' : Frame E} (ran : o.run P f = some f') (rest : Errs k f') :
      Errs (.op o k) f
  | taken {c : Comparison} {a b : Value 8} {taken fallen : Code} {f : Frame E}
      (holds : c.eval (f.value a) (f.value b) = true) (rest : Errs taken f) :
      Errs (.cond c a b taken fallen) f
  | fallen {c : Comparison} {a b : Value 8} {taken fallen : Code} {f : Frame E}
      (fails : c.eval (f.value a) (f.value b) = false) (rest : Errs fallen f) :
      Errs (.cond c a b taken fallen) f

theorem helper_none_iff (h : Helper) (m : Machine E) : h.run P m = none ↔ h.Refuses P m := by
  cases h with
  | retern =>
    simp only [Helper.run, Machine.retern, Helper.Refuses]
    split
    · rename_i some
      exact ⟨(fun same => nomatch same), fun refuses => absurd some refuses⟩
    · rename_i empty
      exact ⟨fun _ => empty, fun _ => rfl⟩
  | call =>
    simp only [Helper.run, Machine.call, Helper.Refuses]
    split
    · rename_i room
      exact ⟨(fun same => nomatch same), fun refuses => absurd room refuses⟩
    · rename_i full
      exact ⟨fun _ => full, fun _ => rfl⟩
  | loadOnKey =>
    simp only [Helper.run, Machine.loadOnKey, Helper.Refuses]
    split
    · rename_i quit
      exact ⟨fun _ => bne_iff_ne.mp quit, fun _ => rfl⟩
    · rename_i plays
      exact ⟨(fun same => nomatch same), fun refuses => absurd (bne_iff_ne.mpr refuses) plays⟩
  | _ => exact ⟨(fun same => nomatch same), fun refuses => nomatch refuses⟩

theorem op_none {o : Op} {f : Frame E} (stops : o.run P f = none) :
    ∃ h, o = .call h ∧ h.Refuses P f.machine := by
  cases o with
  | call h =>
    refine ⟨h, rfl, (helper_none_iff P h f.machine).mp ?_⟩
    exact Option.map_eq_none_iff.mp stops
  | _ => cases stops

theorem run_none_iff (c : Code) (f : Frame E) : c.run P f = none ↔ c.Errs P f := by
  induction c generalizing f with
  | op o k ih =>
    cases ran : o.run P f with
    | none =>
      obtain ⟨h, rfl, refuses⟩ := op_none P ran
      rw [Code.run, ran]
      exact ⟨fun _ => .here refuses, fun _ => rfl⟩
    | some f' =>
      rw [Code.run, ran, Option.bind_some, ih f']
      constructor
      · exact .later ran
      · intro errs
        cases errs with
        | @here h _ _ refuses =>
          have stops := (helper_none_iff P h f.machine).mpr refuses
          rw [Op.run, stops] at ran
          cases ran
        | later ran' rest =>
          cases ran.symm.trans ran'
          exact rest
  | cond c a b taken fallen ihTaken ihFallen =>
    cases holds : c.eval (f.value a) (f.value b) with
    | true =>
      rw [Code.run, holds, if_pos rfl, ihTaken]
      constructor
      · exact .taken holds
      · intro errs
        cases errs with
        | taken _ rest => exact rest
        | fallen fails _ =>
          rw [holds] at fails
          cases fails
    | false =>
      rw [Code.run, holds, if_neg Bool.false_ne_true, ihFallen]
      constructor
      · exact .fallen holds
      · intro errs
        cases errs with
        | taken holds' _ =>
          rw [holds] at holds'
          cases holds'
        | fallen _ rest => exact rest
  | goto pc =>
    constructor
    · intro same
      cases same
    · intro errs
      cases errs
  | backedge pc =>
    constructor
    · intro same
      cases same
    · intro errs
      cases errs
  | ret =>
    constructor
    · intro same
      cases same
    · intro errs
      cases errs

namespace Dispatcher

/-- The block about to run calls `errer`. -/
def CallsErrer (d : Dispatcher E) : Prop :=
  ∃ t pc code, d.position = .running t pc ∧ t.block pc = some code ∧
    code.Errs P ⟨d.machine, fun _ => 0#8⟩

/-- The loop of `main` ends by `break` but for `errer`. -/
def ending (d : Dispatcher E) : Option Ending :=
  match d.position with
  | .stopped .errer => some .exits
  | .stopped _ => some .leaves
  | _ => none

theorem ending_exits {d : Dispatcher E} :
    d.ending = some .exits ↔ d.position = .stopped .errer := by
  unfold ending
  split
  · rename_i here
    exact ⟨fun _ => here, fun _ => rfl⟩
  · rename_i other here
    constructor
    · intro same
      cases same
    · intro errer
      exact absurd (Position.stopped.inj (here.symm.trans errer)) other
  · rename_i notErrer _
    exact ⟨(fun same => nomatch same), fun errer => absurd errer notErrer⟩

theorem service_errer (d : Dispatcher E) : (d.service P).position ≠ .stopped .errer := by
  intro errer
  unfold service at errer
  dsimp only at errer
  split at errer
  · split at errer <;> cases errer
  · split at errer <;> cases errer

theorem compile_errer (b : Build) (d : Dispatcher E) : (d.compile b).position ≠ .stopped .errer ∨
    d.position = .stopped .errer := by
  by_cases before : d.position = .stopped .errer
  · exact .inr before
  · left
    unfold compile
    dsimp only
    split
    · intro errer
      cases errer
    · intro errer
      cases errer
    · exact before

theorem step_errer {b : Build} {d d' : Dispatcher E} (stepped : step P b d = some d') :
    d'.position = .stopped .errer ↔ CallsErrer P d := by
  -- Where no block runs, neither side can be.
  have quiet (apart : ∀ t pc, d.position ≠ .running t pc)
      (fine : d'.position ≠ .stopped .errer) :
      d'.position = .stopped .errer ↔ CallsErrer P d := by
    constructor
    · exact fun errer => absurd errer fine
    · rintro ⟨t, pc, code, here, -⟩
      exact absurd here (apart t pc)
  unfold step at stepped
  split at stepped
  · rename_i top
    have apart (t : Trace) (pc : Word) : d.position ≠ .running t pc := by
      rw [top]
      exact fun same => nomatch same
    split at stepped
    · cases stepped
      obtain fine | errer := compile_errer b d
      · exact quiet apart fine
      · rw [top] at errer
        cases errer
    · cases stepped
      exact quiet apart (fun same => nomatch same)
  · rename_i t pc here
    cases block : t.block pc with
    | none =>
      rw [block] at stepped
      cases stepped
    | some code =>
      rw [block] at stepped
      dsimp only [Option.bind_eq_bind, Option.bind_some] at stepped
      have unique (code' : Code) (t' : Trace) (pc' : Word) (same : d.position = .running t' pc')
          (block' : t'.block pc' = some code') : code' = code := by
        cases here.symm.trans same
        exact Option.some.inj (block'.symm.trans block)
      split at stepped
      · rename_i stops
        cases stepped
        exact ⟨fun _ => ⟨t, pc, code, here, block, (run_none_iff P _ _).mp stops⟩, fun _ => rfl⟩
      · rename_i m exit runs
        cases stepped
        constructor
        · intro errer
          cases exit <;> cases errer
        · rintro ⟨t', pc', code', here', block', errs⟩
          obtain rfl := unique code' t' pc' here' block'
          rw [(run_none_iff P _ _).mpr errs] at runs
          cases runs
  · rename_i t pc here
    have apart (t' : Trace) (pc' : Word) : d.position ≠ .running t' pc' := by
      rw [here]
      exact fun same => nomatch same
    split at stepped <;> cases stepped <;> exact quiet apart (fun same => nomatch same)
  · rename_i here
    cases stepped
    refine quiet ?_ (service_errer P d)
    intro t pc
    rw [here]
    exact fun same => nomatch same
  · cases stepped

/-! ## Runs of the process -/

variable {P} {b : Build}

theorem step_of_calls {d : Dispatcher E} (calls : CallsErrer P d) :
    ∃ d', step P b d = some d' ∧ d'.position = .stopped .errer := by
  have again := calls
  obtain ⟨t, pc, code, here, block, errs⟩ := again
  have stops := (run_none_iff P code _).mpr errs
  refine ⟨{ d with position := .stopped .errer }, ?_, rfl⟩
  unfold step
  rw [here]
  dsimp only
  rw [block]
  dsimp only [Option.bind_eq_bind, Option.bind_some]
  rw [stops]

theorem ending_of_calls {d : Dispatcher E} (calls : CallsErrer P d) : d.ending = none := by
  obtain ⟨t, pc, code, here, -⟩ := calls
  unfold ending
  rw [here]

theorem errer_called {d₀ : Dispatcher E} (fresh : d₀.position ≠ .stopped .errer) {n : Nat}
    {p : Process (Dispatcher E)}
    (run : Run.after (Process.next (step P b) ending) n (.start d₀) = some p)
    (errer : p.state.position = .stopped .errer) :
    ∃ k < n, ∃ q, Run.after (Process.next (step P b) ending) k (.start d₀) = some q ∧
      q.point = .loop ∧ CallsErrer P q.state := by
  induction n generalizing p with
  | zero =>
    cases run
    exact absurd errer fresh
  | succ n ih =>
    obtain ⟨q, earlier, last⟩ := Run.after_succ.mp run
    have before (same : p.state = q.state) :
        ∃ k < n + 1, ∃ q, Run.after (Process.next (step P b) ending) k (.start d₀) = some q ∧
          q.point = .loop ∧ CallsErrer P q.state := by
      obtain ⟨k, small, found⟩ := ih earlier (same ▸ errer)
      exact ⟨k, Nat.lt_succ_of_lt small, found⟩
    unfold Process.next at last
    split at last
    · rename_i loops
      split at last
      · cases last
        exact before rfl
      · cases last
        exact before rfl
      · obtain ⟨d', stepped, rfl⟩ := Option.map_eq_some_iff.mp last
        exact ⟨n, Nat.lt_succ_self n, q, earlier, loops, (step_errer P stepped).mp errer⟩
    · cases last
      exact before rfl
    · cases last
      exact before rfl
    · cases last

theorem ended_of_calls {q p : Process (Dispatcher E)} (loops : q.point = .loop)
    (calls : CallsErrer P q.state) {n : Nat}
    (run : Run.after (Process.next (step P b) ending) n q = some p) (ended : p.point = .ended) :
    p.state.ending = some .exits := by
  obtain ⟨d', stepped, errer⟩ := @step_of_calls _ P b _ calls
  have first : Process.next (step P b) ending q = some { q with state := d' } := by
    unfold Process.next
    rw [loops]
    dsimp only
    rw [ending_of_calls calls]
    dsimp only
    rw [stepped]
    rfl
  have exits := ending_exits.mpr errer
  have second : Process.next (step P b) ending { q with state := d' } =
      some { q with state := d', point := .ended } := by
    unfold Process.next
    dsimp only
    rw [loops]
    dsimp only
    rw [exits]
  -- Two steps, one to the `errer` and one out of the loop, and none behind them.
  cases n with
  | zero =>
    cases run
    rw [loops] at ended
    cases ended
  | succ n =>
    rw [Run.after_head, first, Option.bind_some] at run
    cases n with
    | zero =>
      cases run
      dsimp only at ended
      rw [loops] at ended
      cases ended
    | succ n =>
      rw [Run.after_head, second, Option.bind_some] at run
      cases n with
      | zero =>
        cases run
        exact exits
      | succ n =>
        rw [Run.after_head] at run
        cases run

theorem exits_iff {d₀ : Dispatcher E} (fresh : d₀.position ≠ .stopped .errer) {n : Nat}
    {p : Process (Dispatcher E)}
    (run : Run.after (Process.next (step P b) ending) n (.start d₀) = some p)
    (ended : p.point = .ended) :
    p.state.ending = some .exits ↔
      ∃ k < n, ∃ q, Run.after (Process.next (step P b) ending) k (.start d₀) = some q ∧
        q.point = .loop ∧ CallsErrer P q.state := by
  constructor
  · exact fun exits => errer_called fresh run (ending_exits.mp exits)
  · rintro ⟨k, small, q, earlier, loops, calls⟩
    obtain ⟨q', reached, rest⟩ := Run.after_le (Nat.le_of_lt small) run
    cases earlier.symm.trans reached
    exact ended_of_calls loops calls rest ended

end Dispatcher

end

/-! ## The three engines -/

/-- An interactive process that has ended was shut down in order: the interpreter
always, a JIT exactly if no block of the run has called `errer`. `pc_block` is a table
of all 2^16 addresses here; its range is the matter of `StaysLow`. -/
theorem shutdown_iff {E : Type} (P : Host E) (backend : Backend) (elideIdle : Bool)
    (rom : List Byte) (env : E) (o : Outside) (undefinedShift : Byte → BitVec 32) (tick : Int) :
    (∀ n p, Run.after (Process.next (liveStep o undefinedShift elideIdle) Main.ending) n
        (.start (Main.boot rom tick)) = some p → p.point = .ended → p.Closed) ∧
    ∀ n p, Run.after
        (Process.next (Dispatcher.step P ⟨backend, false, elideIdle⟩) Dispatcher.ending) n
        (.start (start (VM.boot rom) env)) = some p → p.point = .ended →
      (p.Closed ↔ ∀ k < n, ∀ q,
        Run.after (Process.next (Dispatcher.step P ⟨backend, false, elideIdle⟩) Dispatcher.ending)
          k (.start (start (VM.boot rom) env)) = some q →
        q.point = .loop → ¬ q.state.CallsErrer P) := by
  constructor
  · intro n p run ended
    apply (Process.closed_iff _ _ run ended).mpr
    obtain leaves | exits := Process.ended_ending _ _ run ended
    · exact leaves
    · cases Main.ending_leaves exits
  · intro n p run ended
    rw [Process.closed_iff _ _ run ended]
    have fresh : (start (VM.boot rom) env).position ≠ .stopped .errer := fun same => nomatch same
    have exits := Dispatcher.exits_iff fresh run ended
    constructor
    · intro leaves k small q earlier loops calls
      rw [exits.mpr ⟨k, small, q, earlier, loops, calls⟩] at leaves
      cases leaves
    · intro never
      obtain leaves | exited := Process.ended_ending _ _ run ended
      · exact leaves
      · obtain ⟨k, small, q, earlier, loops, calls⟩ := exits.mp exited
        exact absurd calls (never k small q earlier loops)

/-- The interactive host of the JITs on recorded inputs; no signal arrives. -/
def tapeJitHost (tape : Tape) (undefinedShift : Byte → BitVec 32) : Host Cursor :=
  { tapePlatform tape undefinedShift with
    checkInterrupt := id
    programOver := fun _ => false
    retire := fun _ => id
    safepoint := id
    idleWait := id }

/-- The quit key is what ends a wait for a key. -/
def quitTape : Tape := { quietTape with awaited := fun _ => quitBit, keys := fun _ => quitBit }

/-- A word no engine decodes. -/
def undecodable : List Byte := [0xff, 0xff]

/-- On an undecodable word the interpreter and a JIT shut down. -/
theorem shutdown_iff_undecodable :
    (∃ p, Run.after (Process.next (liveStep quietOutside (fun _ => 0#32) false) Main.ending) 4
        (.start (Main.boot undecodable 0)) = some p ∧ p.Closed) ∧
    ∃ p, Run.after (Process.next
        (Dispatcher.step (tapeJitHost quietTape fun _ => 0#32) ⟨.llvm, false, false⟩)
        Dispatcher.ending) 4 (.start (start (VM.boot undecodable) .start)) = some p ∧ p.Closed := by
  obtain ⟨interpreter, jit⟩ := shutdown_iff (tapeJitHost quietTape fun _ => 0#32) .llvm false
    undecodable .start quietOutside (fun _ => 0#32) 0
  constructor
  · exact ⟨_, rfl, interpreter 4 _ rfl rfl⟩
  · refine ⟨_, rfl, (jit 4 _ rfl rfl).mpr ?_⟩
    rintro k small q reached loops ⟨t, pc, code, here, -⟩
    interval_cases k <;> cases reached <;> cases here

/-- `LD V0, K`. -/
def waitsForKey : List Byte := [0xf0, 0x0a]

/-- With the quit key the interpreter shuts down, and the JITs leave the terminal as it is. -/
theorem errer_skips_shutdown :
    (∀ backend, ∃ p, Run.after (Process.next
        (Dispatcher.step (tapeJitHost quitTape fun _ => 0#32) ⟨backend, false, false⟩)
        Dispatcher.ending) 4 (.start (start (VM.boot waitsForKey) .start)) = some p ∧
      p.point = .ended ∧ p.deinits = 0 ∧ p.dumps = 0) ∧
    ∃ p, Run.after (Process.next
        (liveStep { quietOutside with awaited := fun _ => quitBit } (fun _ => 0#32) false)
        Main.ending) 4 (.start (Main.boot waitsForKey 0)) = some p ∧
      p.point = .ended ∧ p.Closed := by
  refine ⟨fun backend => ?_, _, rfl, rfl, rfl, rfl⟩
  cases backend <;> exact ⟨_, rfl, rfl, rfl, rfl⟩

end ChipEight.Jit
