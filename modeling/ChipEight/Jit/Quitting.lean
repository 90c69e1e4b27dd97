import ChipEight.Jit.Retelling
import Mathlib.Logic.Function.Iterate

/-! Quitting while a poll loop is waited out.

A run with `--elide-idle` in which no wait comes to see the quit key while the timer runs is
followed by the plain engine, which spins in native code instead and is told of the quit key when
the other one hears it.
-/

set_option autoImplicit false

namespace ChipEight

/-! ## The waits -/

section
variable (o : Outside) (signals : Signals)

/-- The timer of a wait runs out, and until then the quit key is not read. -/
structure JitLive.WaitsOut (e : JitLive) : Prop where
  goesOn : e.programOver = false
  unread : ∀ j, (∀ i ≤ j, ((Live.interrupt o)^[i] e.live).delayTimer ≠ 0#8) →
    ((Live.interrupt o)^[j] e.live).quitting = false
  returns : ∃ n ≤ signals.passes, ((Live.interrupt o)^[n] e.live).delayTimer = 0#8

variable {o} {signals}

/-- The timer runs out in so many services, and the quit key is not read until then. -/
def Live.runsOut (o : Outside) : Nat → Live → Bool
  | 0, live => live.delayTimer == 0#8
  | n + 1, live => live.delayTimer == 0#8 || !live.quitting && (live.interrupt o).runsOut o n

theorem runsOut_iff {n : Nat} {live : Live} :
    live.runsOut o n = true ↔
      (∀ j, (∀ i ≤ j, ((Live.interrupt o)^[i] live).delayTimer ≠ 0#8) →
        ((Live.interrupt o)^[j] live).quitting = false) ∧
      ∃ i ≤ n, ((Live.interrupt o)^[i] live).delayTimer = 0#8 := by
  induction n generalizing live with
  | zero =>
    rw [Live.runsOut, beq_iff_eq]
    constructor
    · intro zero
      exact ⟨fun j running => absurd zero (running 0 (Nat.zero_le j)), 0, Nat.le_refl 0, zero⟩
    · rintro ⟨-, i, small, zero⟩
      obtain rfl := Nat.le_zero.mp small
      exact zero
  | succ n ih =>
    rw [Live.runsOut, Bool.or_eq_true, beq_iff_eq, Bool.and_eq_true, Bool.not_eq_true', ih]
    by_cases zero : live.delayTimer = 0#8
    · refine iff_of_true (.inl zero) ⟨fun j running => absurd zero (running 0 (Nat.zero_le j)), 0,
        Nat.zero_le _, zero⟩
    constructor
    · rintro (expired | ⟨calm, unread, i, small, expired⟩)
      · exact absurd expired zero
      refine ⟨fun j running => ?_, i + 1, Nat.succ_le_succ small, expired⟩
      cases j with
      | zero => exact calm
      | succ j => exact unread j fun i up => running (i + 1) (Nat.succ_le_succ up)
    · rintro ⟨unread, i, small, expired⟩
      have calm := unread 0 fun i none => by
        obtain rfl := Nat.le_zero.mp none
        exact zero
      refine .inr ⟨calm, fun j running => ?_, ?_⟩
      · refine unread (j + 1) fun i up => ?_
        cases i with
        | zero => exact zero
        | succ i => exact running i (Nat.le_of_succ_le_succ up)
      · cases i with
        | zero => exact absurd expired zero
        | succ i => exact ⟨i, Nat.le_of_succ_le_succ small, expired⟩

theorem waitsOut_iff {e : JitLive} :
    e.WaitsOut o signals ↔ e.programOver = false ∧ e.live.runsOut o signals.passes = true := by
  rw [runsOut_iff]
  exact ⟨fun ⟨goesOn, unread, returns⟩ => ⟨goesOn, unread, returns⟩,
    fun ⟨goesOn, unread, returns⟩ => ⟨goesOn, unread, returns⟩⟩

instance (e : JitLive) : Decidable (e.WaitsOut o signals) := decidable_of_iff _ waitsOut_iff.symm

theorem JitLive.WaitsOut.idleWait {e : JitLive} (waits : e.WaitsOut o signals) :
    ∃ n, (∀ i < n, ((Live.interrupt o)^[i] e.live).delayTimer ≠ 0#8) ∧
      ((Live.interrupt o)^[n] e.live).delayTimer = 0#8 ∧
      e.idleWait o signals = { e with live := (Live.interrupt o)^[n] e.live } := by
  obtain ⟨n, ⟨within, expired⟩, first⟩ := Nat.findX waits.returns
  have running (i : Nat) (before : i < n) :
      ((Live.interrupt o)^[i] e.live).delayTimer ≠ 0#8 := fun zero =>
    first i before ⟨Nat.le_trans (Nat.le_of_lt before) within, zero⟩
  -- While the timer runs the quit key is not in the ring, so a pass is a service.
  have looped (j : Nat) : j ≤ n →
      Run.after (idleLoop o) j e.live = some ((Live.interrupt o)^[j] e.live) := by
    induction j with
    | zero => exact fun _ => rfl
    | succ j ih =>
      intro small
      refine Run.after_succ.mpr ⟨_, ih (Nat.le_of_succ_le small), ?_⟩
      have calm := waits.unread j fun i up => running i (Nat.lt_of_le_of_lt up small)
      unfold idleLoop
      rw [calm, beq_eq_false_iff_ne.mpr (running j small), Function.iterate_succ_apply']
      rfl
  have stops : idleLoop o ((Live.interrupt o)^[n] e.live) = none := by
    unfold idleLoop
    rw [expired]
    rfl
  refine ⟨n, running, expired, ?_⟩
  have finished := Run.finish_eq (looped n (Nat.le_refl n)) stops within
  unfold JitLive.idleWait
  dsimp only
  rw [finished, stops, expired]
  simp

/-- Control goes on behind a wait with the timer at zero only. -/
theorem idleWait_expired {e : JitLive} (goesOn : (e.idleWait o signals).programOver = false)
    (returns : (e.idleWait o signals).givenUp = false) :
    (e.idleWait o signals).live.delayTimer = 0#8 := by
  have ended := (Bool.or_eq_false_iff.mp returns).2
  have quits := (Bool.or_eq_false_iff.mp goesOn).2
  by_contra waits
  have calm : (e.idleWait o signals).live.quitting = false := by
    rw [show (Run.finish (idleLoop o) signals.passes e.live) = (e.idleWait o signals).live from rfl,
      bne_iff_ne.mpr waits, Bool.true_and] at quits
    exact quits
  rw [show (Run.finish (idleLoop o) signals.passes e.live) = (e.idleWait o signals).live from rfl]
    at ended
  unfold idleLoop at ended
  rw [calm, beq_eq_false_iff_ne.mpr waits] at ended
  cases ended

end

namespace Jit

/-! ## Operations and blocks -/

section
variable {o : Outside} {signals : Signals} {undefinedShift : Byte → BitVec 32} {e' : JitLive}

theorem op_retold {op : Op} (free : op.waits = false) {f f' : Frame JitLive}
    (ran : op.run (liveHost o signals undefinedShift) f = some f')
    (retold : Retold f.machine.env e')
    (unseen : ∀ h, op = .call h → h.Unseen undefinedShift f.machine) :
    ∃ e'', Retold f'.machine.env e'' ∧
      Yields o undefinedShift e' e'' (fun P => op.run P (f.withEnv e')) (f'.withEnv e'') := by
  cases op with
  | load i x | setReg x v | setAddr v | setPc v | retire n =>
    cases ran
    exact ⟨e', retold, .unasked rfl rfl fun _ _ _ => rfl⟩
  | getDelay x =>
    cases ran
    refine ⟨e', retold, .unasked rfl rfl fun _ _ _ => ?_⟩
    obtain ⟨masks, served, looked, rfl⟩ := retold.same
    rfl
  | setDelay v =>
    cases ran
    exact ⟨_, retold.changes (fun l => { l with delayTimer := f.value v }) (fun _ _ _ => rfl)
      fun _ => ⟨rfl, rfl⟩, .unasked rfl rfl fun _ _ _ => rfl⟩
  | setSound v =>
    cases ran
    exact ⟨_, retold.changes (fun l => { l with soundTimer := f.value v }) (fun _ _ _ => rfl)
      fun _ => ⟨rfl, rfl⟩, .unasked rfl rfl fun _ _ _ => rfl⟩
  | safepoint =>
    cases ran
    obtain ⟨e'', checked, yields⟩ := @check_retold o signals undefinedShift _ _ retold
    refine ⟨e'', checked, yields.map fun o' signals' _ found => ?_⟩
    exact congrArg (fun e => some (f.withEnv e)) (Option.some.inj found)
  | call h =>
    obtain ⟨m, called, rfl⟩ := Option.map_eq_some_iff.mp ran
    have other : h ≠ .idleWait := by
      rintro rfl
      cases free
    obtain ⟨e'', helped, yields⟩ := helper_retold other called retold (unseen h rfl)
    refine ⟨e'', helped, yields.map fun o' signals' _ found => ?_⟩
    show Option.map _ (h.run _ _) = _
    rw [show h.run (liveHost o' signals' undefinedShift) (f.withEnv e').machine = _ from found]
    rfl

/-- Code comes to its exit, or to the wait in front of it, where the plain code comes. -/
theorem code_retold {k : Code} (last : k.waitsLast = true) {f : Frame JitLive}
    {m : Machine JitLive} {exit : Exit}
    (ran : k.run (liveHost o signals undefinedShift) f = some (m, exit))
    (retold : Retold f.machine.env e')
    (unseen : ∀ k' g h, Code.Comes (liveHost o signals undefinedShift) k f (.op (.call h) k') g →
      h.Unseen undefinedShift g.machine) :
    ∃ (g : Machine JitLive) (e'' : JitLive), Retold g.env e'' ∧
      Yields o undefinedShift e' e'' (fun P => k.plain.run P (f.withEnv e')) (g.withEnv e'', exit) ∧
      (m = g ∨ ∃ t f', exit = .backedge t ∧ f'.machine = g ∧
        m = g.idleWait (liveHost o signals undefinedShift) ∧
        Code.Comes (liveHost o signals undefinedShift) k f
          (.op (.call .idleWait) (.backedge t)) f') := by
  induction k generalizing f e' with
  | op op k ih =>
    -- A wait ends the induction: `waitsLast` leaves nothing but the back edge behind it.
    obtain ⟨behind, last⟩ := Bool.and_eq_true_iff.mp last
    obtain ⟨f₁, first, rest⟩ := Option.bind_eq_some_iff.mp ran
    cases waits : op.waits with
    | true =>
      obtain rfl : op = .call .idleWait := by
        cases op with
        | call h =>
          cases h with
          | idleWait => rfl
          | _ => cases waits
        | _ => cases waits
      cases k with
      | backedge t =>
        cases first
        cases rest
        exact ⟨f.machine, e', retold, .unasked rfl rfl fun _ _ _ => rfl,
          .inr ⟨t, f, rfl, rfl, rfl, .here⟩⟩
      | _ => cases behind
    | false =>
      obtain ⟨e₁, retold₁, yields₁⟩ := op_retold waits first retold
        fun h same => unseen k f h (same ▸ .here)
      obtain ⟨g, e'', retold', yields, exits⟩ := ih last rest retold₁
        fun k' g h comes => unseen k' g h (.op first comes)
      refine ⟨g, e'', retold', yields₁.then yields fun o' signals' _ found found' => ?_, ?_⟩
      · have shape : (Code.op op k).plain = .op op k.plain := by
          rw [Code.plain, waits]
          rfl
        rw [shape, Code.run, found]
        exact found'
      · obtain same | ⟨t, f', closes, here, called, comes⟩ := exits
        · exact .inl same
        · exact .inr ⟨t, f', closes, here, called, .op first comes⟩
  | cond c x y taken fallen ihTaken ihFallen =>
    obtain ⟨lastTaken, lastFallen⟩ := Bool.and_eq_true_iff.mp last
    rw [Code.run] at ran
    split at ran
    · rename_i holds
      obtain ⟨g, e'', retold', yields, exits⟩ := ihTaken lastTaken ran retold
        fun k' g h comes => unseen k' g h (.taken holds comes)
      refine ⟨g, e'', retold', yields.map fun o' signals' _ found => ?_, ?_⟩
      · exact (if_pos holds).trans found
      · obtain same | ⟨t, f', closes, here, called, comes⟩ := exits
        · exact .inl same
        · exact .inr ⟨t, f', closes, here, called, .taken holds comes⟩
    · rename_i fails
      have fails : c.eval (f.value x) (f.value y) = false := Bool.eq_false_iff.mpr fails
      obtain ⟨g, e'', retold', yields, exits⟩ := ihFallen lastFallen ran retold
        fun k' g h comes => unseen k' g h (.fallen fails comes)
      refine ⟨g, e'', retold', yields.map fun o' signals' _ found => ?_, ?_⟩
      · exact (if_neg (Bool.eq_false_iff.mp fails)).trans found
      · obtain same | ⟨t, f', closes, here, called, comes⟩ := exits
        · exact .inl same
        · exact .inr ⟨t, f', closes, here, called, .fallen fails comes⟩
  | goto pc | backedge t | ret =>
    cases ran
    exact ⟨f.machine, e', retold, .unasked rfl rfl fun _ _ _ => rfl, .inl rfl⟩

end

/-! ## Dispatchers -/

/-- The dispatcher without the waits, on another host. -/
def Dispatcher.plain (e : JitLive) (d : Dispatcher JitLive) : Dispatcher JitLive :=
  { machine := d.machine.withEnv e
    cache := fun pc => (d.cache pc).map Trace.plain
    traceCount := d.traceCount
    compiled := d.compiled
    flushes := d.flushes
    position := d.position.plain }

section
variable (o : Outside) (undefinedShift : Byte → BitVec 32) (backend : Backend)

/-- The engine without the flag gets from `p` to `q`, if it is told the right things. -/
def Leads (p q : Dispatcher JitLive) : Prop :=
  ∃ n, Yields o undefinedShift p.machine.env q.machine.env
    (fun P => Run.after (Dispatcher.step P ⟨backend, false, false⟩) n p) q

/-- `p` has been quit like `d`. -/
structure QuitAlike (d p : Dispatcher JitLive) : Prop where
  quit : p.position = .stopped .quit
  vm : p.machine.vm = d.machine.vm
  delay : p.machine.env.live.delayTimer = d.machine.env.live.delayTimer

variable {o} {undefinedShift} {backend} {signals : Signals} {e : JitLive}

theorem Leads.refl (p : Dispatcher JitLive) : Leads o undefinedShift backend p p :=
  ⟨0, .unasked rfl rfl fun _ _ _ => rfl⟩

theorem Leads.trans {p q r : Dispatcher JitLive} (first : Leads o undefinedShift backend p q)
    (second : Leads o undefinedShift backend q r) : Leads o undefinedShift backend p r := by
  obtain ⟨m, first⟩ := first
  obtain ⟨n, second⟩ := second
  exact ⟨m + n, first.then second fun _ _ _ found found' => Run.after_trans found found'⟩

theorem leads_step {p q : Dispatcher JitLive}
    (stepped : Yields o undefinedShift p.machine.env q.machine.env
      (fun P => Dispatcher.step P ⟨backend, false, false⟩ p) q) :
    Leads o undefinedShift backend p q :=
  ⟨1, stepped.map fun _ _ _ found => found⟩

theorem compile_plain (d : Dispatcher JitLive) :
    (d.plain e).compile ⟨backend, false, false⟩ =
      (d.compile ⟨backend, false, true⟩).plain e := by
  unfold Dispatcher.compile
  dsimp only
  rw [show (d.plain e).machine.vm = d.machine.vm from rfl, codegen_plain]
  dsimp only
  cases (codegen ⟨backend, false, true⟩ d.machine.vm.memory d.machine.vm.programCounter).outcome with
  | bail => rfl
  | outOfFuel => rfl
  | code rest blocks =>
    have caches : Function.update (fun pc => (d.cache pc).map Trace.plain)
        d.machine.vm.programCounter (some ⟨d.machine.vm.programCounter, plainBlocks blocks,
          (codegen ⟨backend, false, true⟩ d.machine.vm.memory d.machine.vm.programCounter).reads⟩) =
        fun pc => (Function.update d.cache d.machine.vm.programCounter (some
          ⟨d.machine.vm.programCounter, blocks, (codegen ⟨backend, false, true⟩ d.machine.vm.memory
            d.machine.vm.programCounter).reads⟩) pc).map Trace.plain := by
      funext pc
      rw [Function.update_apply, Function.update_apply]
      split <;> rfl
    dsimp only [Outcome.plain, Dispatcher.plain]
    rw [← caches]
    rfl

/-! ### The end of the main loop's body -/

/-- The end of the main loop's body, with `check_interrupt` done. -/
def Dispatcher.serviced (e : JitLive) (d : Dispatcher JitLive) : Dispatcher JitLive :=
  let d := { d with machine := d.machine.withEnv e }
  let d := if d.machine.smcPending then d.invalidateTraces else d
  if e.live.quitting || e.programOver then { d with position := .stopped .quit }
  else { d with position := .top, traceCount := d.traceCount + 1 }

theorem service_live (d : Dispatcher JitLive) :
    d.service (liveHost o signals undefinedShift) =
      d.serviced (d.machine.env.checkInterrupt o signals) := by
  unfold Dispatcher.service Dispatcher.serviced
  dsimp only [Machine.mapEnv, Machine.withEnv]
  split <;> rfl

theorem serviced_plain {e₁ e₂ : JitLive} (d : Dispatcher JitLive)
    (same : (e₂.live.quitting || e₂.programOver) = (e₁.live.quitting || e₁.programOver)) :
    (d.plain e).serviced e₂ = (d.serviced e₁).plain e₂ := by
  unfold Dispatcher.serviced
  dsimp only
  rw [same]
  generalize (e₁.live.quitting || e₁.programOver) = ends
  obtain ⟨⟨vm, env, codeBytes, pending⟩, cache, traceCount, compiled, flushes, position⟩ := d
  cases pending <;> cases ends <;> rfl

theorem serviced_env (d : Dispatcher JitLive) : (d.serviced e).machine.env = e := by
  unfold Dispatcher.serviced
  dsimp only
  split <;> split <;> rfl

theorem serviced_vm (d : Dispatcher JitLive) : (d.serviced e).machine.vm = d.machine.vm := by
  unfold Dispatcher.serviced
  dsimp only
  split <;> split <;> rfl

theorem serviced_quit {d : Dispatcher JitLive} (ended : (e.live.quitting || e.programOver) = true) :
    (d.serviced e).position = .stopped .quit := by
  unfold Dispatcher.serviced
  dsimp only
  rw [ended]
  rfl

/-- A signal with the quit key and no tick ends the program. -/
theorem hear_quits {e : JitLive} (ring : e.live.interruptCount < inputTicks) :
    (e.hear true e.live.lastTick quitBit).programOver = true ∧
      (e.hear true e.live.lastTick quitBit).live.delayTimer = e.live.delayTimer := by
  have same : e.live.countTimers e.live.lastTick = e.live := by
    unfold Live.countTimers
    exact if_neg fun differs => differs rfl
  have heard : e.hear true e.live.lastTick quitBit =
      { e with
        tested := e.tested + 1
        live := e.live.recordKeys quitBit
        programOver := e.programOver || (e.live.recordKeys quitBit).quitting } := by
    unfold JitLive.hear
    rw [same]
    rfl
  rw [heard]
  constructor
  · have newest : Function.update e.live.keysDown e.live.interruptCount quitBit
        e.live.interruptCount = quitBit := Function.update_self _ _ _
    have quits : (e.live.recordKeys quitBit).quitting = true := (quitting_iff _).mpr
      ⟨e.live.interruptCount, ring, congrArg (fun keys : BitVec 32 => keys.getLsbD 31) newest⟩
    dsimp only
    rw [quits, Bool.or_true]
  · rfl

/-- The test for the quit key stops both, or none. Where the quit key is in the ring since a wait,
the plain engine is told of it now. -/
theorem service_retold {d : Dispatcher JitLive} (here : d.position = .returned)
    (retold : Retold d.machine.env e) :
    (∃ e', Retold (d.service (liveHost o signals undefinedShift)).machine.env e' ∧
      Leads o undefinedShift backend (d.plain e)
        ((d.service (liveHost o signals undefinedShift)).plain e')) ∨
    (d.service (liveHost o signals undefinedShift)).position = .stopped .quit ∧
      ∃ p, Leads o undefinedShift backend (d.plain e) p ∧
        QuitAlike (d.service (liveHost o signals undefinedShift)) p := by
  have plain (o' : Outside) (signals' : Signals) :
      Dispatcher.step (liveHost o' signals' undefinedShift) ⟨backend, false, false⟩ (d.plain e) =
        some ((d.plain e).serviced (e.checkInterrupt o' signals')) := by
    have position : (d.plain e).position = .returned := by
      show d.position.plain = _
      rw [here]
      rfl
    unfold Dispatcher.step
    rw [position]
    exact congrArg some (service_live (d.plain e))
  obtain ⟨e', checked, yields⟩ := @check_retold o signals undefinedShift _ _ retold
  rw [service_live]
  -- Either both dispatchers decide alike, or only the one with the waits sees the quit key.
  by_cases same : (e'.live.quitting || e'.programOver) =
      ((d.machine.env.checkInterrupt o signals).live.quitting ||
        (d.machine.env.checkInterrupt o signals).programOver)
  · left
    refine ⟨e', ?_, leads_step (yields.map fun o' signals' _ found => ?_)⟩
    · rw [serviced_env]
      exact checked
    · rw [plain, show e.checkInterrupt o' signals' = e' from Option.some.inj found]
      exact congrArg some (serviced_plain d same)
  · right
    -- The quit key is in the one ring only, so it has been read by a wait, and not just now.
    rw [checked.programOver] at same
    obtain ⟨goesOn, quits⟩ : (d.machine.env.checkInterrupt o signals).programOver = false ∧
        (d.machine.env.checkInterrupt o signals).live.quitting = true := by
      cases ended : (d.machine.env.checkInterrupt o signals).programOver with
      | true =>
        rw [ended, Bool.or_true, Bool.or_true] at same
        exact absurd rfl same
      | false =>
        have calm : e'.live.quitting = false := Bool.eq_false_iff.mpr fun quitting =>
          checked.calm ended ((quitting_iff_quits _).mp quitting)
        rw [ended, calm, Bool.or_false, Bool.or_false] at same
        exact ⟨rfl, Bool.not_eq_false _ ▸ Ne.symm same⟩
    have unheard : signals.pending d.machine.env.tested = false := by
      cases pending : signals.pending d.machine.env.tested with
      | false => rfl
      | true =>
        rw [JitLive.checkInterrupt_hear, pending] at goesOn quits
        have ended := (Bool.or_eq_false_iff.mp goesOn).2
        exact absurd (quits.symm.trans ended) Bool.noConfusion
    -- So the plain one is told now: a signal, the tick it has seen last, and the key.
    have ring : e.live.interruptCount < inputTicks := by
      obtain ⟨⟨masks, served, looked, rfl⟩, -, -, ring⟩ := retold
      exact ring
    obtain ⟨ended, delay⟩ := hear_quits ring
    have told := @hear_yields o undefinedShift e true e.live.lastTick quitBit
    refine ⟨serviced_quit (by rw [quits, Bool.true_or]),
      (d.plain e).serviced (e.hear true e.live.lastTick quitBit),
      leads_step (Yields.quiet (told.map fun o' signals' _ found => ?_) ?_ ?_), ?_, ?_, ?_⟩
    · rw [plain, show e.checkInterrupt o' signals' = _ from Option.some.inj found]
    · rw [serviced_env]
    · rw [serviced_env]
    · exact serviced_quit (by rw [ended, Bool.or_true])
    · rw [serviced_vm, serviced_vm]
      rfl
    · -- Nothing was pending for the one, so its timer has not moved either.
      rw [serviced_env, serviced_env, delay, retold.delayTimer, JitLive.checkInterrupt_hear,
        unheard]
      rfl

/-! ### Spinning -/

/-- A prologue does the same on a host that is retold. -/
theorem passed_retold {s : JitLive} (retold : Retold s e) (i : Nat) :
    ∃ e', Retold (passed (liveHost o signals undefinedShift) i s) e' ∧
      Yields o undefinedShift e e' (fun P => some (passed P i e)) e' := by
  unfold passed
  split
  · obtain ⟨e', checked, yields⟩ := @check_retold o signals undefinedShift _ _ retold
    exact ⟨e', checked, yields⟩
  · exact ⟨e, retold, .unasked rfl rfl fun _ _ _ => rfl⟩

/-- A prologue that finds no signal does nothing. -/
theorem passed_quiet {s : JitLive} (retold : Retold s e) (i : Nat) :
    ∃ e', Retold s e' ∧ Yields o undefinedShift e e' (fun P => some (passed P i e)) e' := by
  unfold passed
  split
  · exact ⟨_, retold.looks 0 0#32, @hear_yields o undefinedShift e false 0 0#32⟩
  · exact ⟨e, retold, .unasked rfl rfl fun _ _ _ => rfl⟩

/-- The loop at `pc` in the code of a trace that does not wait. -/
structure SpinsIn (backend : Backend) (t : Trace) (i : Nat) (pc : Word) (x : Reg) : Prop where
  poll : t.block pc = some (pollBlock ⟨backend, false, false⟩ i x (.goto (pc + 2)))
  test : ∃ rest, t.block (pc + 2) = some (testBlock ⟨backend, false, false⟩ (i + 1) x (pc + 2 + 4)
    rest (seq [.safepoint, .setPc (.const pc)] (.backedge pc)))

theorem spinsIn_plain {t : Trace} (laid : Laid ⟨backend, false, true⟩ t.blocks) {memory : Memory}
    {i : Nat} {pc : Word} {x : Reg} {rest : Code}
    (header : t.blocks[i]? = some (pc, pollBlock ⟨backend, false, true⟩ i x (.goto (pc + 2))))
    (next : t.blocks[i + 1]? = some (pc + 2, testBlock ⟨backend, false, true⟩ (i + 1) x (pc + 2 + 4)
      rest (seq ([.safepoint, .setPc (.const pc)] ++ Build.idleWait ⟨backend, false, true⟩ memory pc)
        (.backedge pc)))) :
    SpinsIn backend t.plain i pc x := by
  constructor
  · rw [plain_block, block_at laid.distinct header, Option.map_some, pollBlock,
      seq_plain (prologue_free true i)]
    rfl
  · refine ⟨rest.plain, ?_⟩
    have fallen := (@closed_plain backend memory _ (jump_free pc) pc).1
    rw [plain_block, block_at laid.distinct next, Option.map_some, testBlock,
      seq_plain (prologue_free true (i + 1)), seq_plain (skipCond_free _), Code.plain, fallen]
    rfl

section
variable {p : Dispatcher JitLive} {t : Trace} {i : Nat} {pc : Word} {x : Reg}

theorem spins_enters (here : p.position = .backedge t pc)
    (goesOn : p.machine.env.programOver = false) (o' : Outside) (signals' : Signals) :
    Dispatcher.step (liveHost o' signals' undefinedShift) ⟨backend, false, false⟩ p =
      some { p with position := .running t pc } := by
  unfold Dispatcher.step
  rw [here]
  exact if_neg (Bool.not_eq_true _ ▸ goesOn)

theorem spins_polls (spins : SpinsIn backend t i pc x) (here : p.position = .running t pc)
    (o' : Outside) (signals' : Signals) :
    Dispatcher.step (liveHost o' signals' undefinedShift) ⟨backend, false, false⟩ p =
      some { p with
        machine := { p.machine with
          vm := p.machine.vm.setReg x
            (passed (liveHost o' signals' undefinedShift) i p.machine.env).live.delayTimer
          env := passed (liveHost o' signals' undefinedShift) i p.machine.env }
        position := .running t (pc + 2) } :=
  step_running here spins.poll (poll_run false i x (pc + 2) _)

theorem spins_tests (spins : SpinsIn backend t i pc x) (here : p.position = .running t (pc + 2))
    (waits : p.machine.vm.regs x ≠ 0#8) (o' : Outside) (signals' : Signals) :
    Dispatcher.step (liveHost o' signals' undefinedShift) ⟨backend, false, false⟩ p =
      some { p with
        machine := { p.machine with
          vm := p.machine.vm.setPc pc
          env := (passed (liveHost o' signals' undefinedShift) (i + 1) p.machine.env).checkInterrupt
            o' signals' }
        position := .backedge t pc } := by
  obtain ⟨rest, test⟩ := spins.test
  obtain ⟨g, falls, after⟩ := @test_falls backend JitLive (liveHost o' signals' undefinedShift) false
    (i + 1) x (pc + 2 + 4) rest (seq [.safepoint, .setPc (.const pc)] (.backedge pc))
    ⟨p.machine, fun _ => 0#8⟩ waits
  have ran : (seq [.safepoint, .setPc (.const pc)] (.backedge pc)).run
      (liveHost o' signals' undefinedShift) g = some ({ p.machine with
        vm := p.machine.vm.setPc pc
        env := (passed (liveHost o' signals' undefinedShift) (i + 1) p.machine.env).checkInterrupt
          o' signals' }, .backedge pc) := by
    show some (Machine.mapVM (fun vm => vm.setPc pc)
      (g.machine.mapEnv (JitLive.checkInterrupt o' signals')), _) = _
    rw [after]
    rfl
  exact step_running here test (falls.run.trans ran)

/-- A pass of the loop: the prologues find no signal, and the jump finds one. -/
theorem spins_pass (spins : SpinsIn backend t i pc x) (here : p.position = .backedge t pc)
    {s : JitLive} (retold : Retold s p.machine.env) (goesOn : s.programOver = false)
    (waits : s.live.delayTimer ≠ 0#8) (tick : Int) (keys : BitVec 32) :
    ∃ e', Retold (s.serve tick keys) e' ∧
      Leads o undefinedShift backend p { p with
        machine := { p.machine with
          vm := (p.machine.vm.setReg x s.live.delayTimer).setPc pc
          env := e' } } := by
  obtain ⟨e₁, first, looks⟩ := @passed_quiet o undefinedShift _ _ retold i
  obtain ⟨e₂, second, looks'⟩ := @passed_quiet o undefinedShift _ _ first (i + 1)
  have told := @hear_yields o undefinedShift e₂ true tick (pressing false keys)
  have checks : Yields o undefinedShift e₁ (e₂.hear true tick (pressing false keys))
      (fun P => some (P.checkInterrupt (passed P (i + 1) e₁)))
      (e₂.hear true tick (pressing false keys)) :=
    looks'.then told fun o' signals' _ found found' => by
      rw [Option.some.inj found]
      exact found'
  refine ⟨_, second.waits goesOn tick keys, 3,
    looks.then checks fun o' signals' _ found found' => ?_⟩
  have polled := Option.some.inj found
  have heard : (passed (liveHost o' signals' undefinedShift) (i + 1) e₁).checkInterrupt o'
    signals' = e₂.hear true tick (pressing false keys) := Option.some.inj found'
  -- The back edge, the poll, and the test with the jump folded into it.
  have step₁ := @spins_enters undefinedShift backend p t pc here (retold.programOver.trans goesOn)
    o' signals'
  have step₂ := @spins_polls undefinedShift backend { p with position := .running t pc } t i pc x
    spins rfl o' signals'
  have step₃ := @spins_tests undefinedShift backend { p with
      machine := { p.machine with vm := p.machine.vm.setReg x s.live.delayTimer, env := e₁ }
      position := .running t (pc + 2) } t i pc x spins rfl
    (by dsimp only; rwa [regs_setReg]) o' signals'
  dsimp only at step₂ step₃
  rw [polled, first.delayTimer] at step₂
  rw [heard, ← here] at step₃
  exact Run.after_succ.mpr ⟨_, Run.after_succ.mpr ⟨_, step₁, step₂⟩, step₃⟩

/-- The plain engine spins while the other one waits. -/
theorem spins_out (spins : SpinsIn backend t i pc x) (here : p.position = .backedge t pc)
    (stored : p.machine.vm.programCounter = pc) {s : JitLive} (retold : Retold s p.machine.env)
    (goesOn : s.programOver = false) {n : Nat}
    (running : ∀ i < n, ((Live.interrupt o)^[i] s.live).delayTimer ≠ 0#8) :
    ∃ (e' : JitLive) (v : Byte), Retold { s with live := (Live.interrupt o)^[n] s.live } e' ∧
      Leads o undefinedShift backend p { p with
        machine := { p.machine with vm := p.machine.vm.setReg x v, env := e' } } := by
  induction n with
  | zero =>
    refine ⟨p.machine.env, p.machine.vm.regs x, retold, ?_⟩
    rw [setReg_self]
    exact .refl p
  | succ n ih =>
    obtain ⟨e₁, v, retold₁, leads⟩ := ih fun i before => running i (Nat.lt_succ_of_lt before)
    let s₁ : JitLive := { s with live := (Live.interrupt o)^[n] s.live }
    -- The pass after these reads what the wait reads in its pass, less the quit key.
    obtain ⟨e₂, retold₂, leads₂⟩ := @spins_pass o undefinedShift backend
      { p with machine := { p.machine with vm := p.machine.vm.setReg x v, env := e₁ } } t i pc x
      spins here s₁ retold₁ goesOn (running n (Nat.lt_succ_self n)) (o.ticks s₁.live.serviced)
      (o.keys s₁.live.serviced)
    refine ⟨e₂, s₁.live.delayTimer, ?_, leads.trans ?_⟩
    · rw [Function.iterate_succ_apply']
      exact retold₂
    · have same : ((p.machine.vm.setReg x v).setReg x s₁.live.delayTimer).setPc pc =
          p.machine.vm.setReg x s₁.live.delayTimer := by
        rw [setReg_setReg, ← stored]
        rfl
      dsimp only at leads₂
      rw [same] at leads₂
      exact leads₂

end

/-! ### Steps -/

variable (o) (undefinedShift) in
/-- At what a step calls: no key skip comes to see the quit key, and no wait does while the timer
runs. -/
structure Undisturbed (signals : Signals) (d : Dispatcher JitLive) : Prop where
  unseen : ∀ t a code h k f, d.position = .running t a → t.block a = some code →
    Code.Comes (liveHost o signals undefinedShift) code ⟨d.machine, fun _ => 0#8⟩
      (.op (.call h) k) f → h.Unseen undefinedShift f.machine
  waits : ∀ t a code k f, d.position = .running t a → t.block a = some code →
    Code.Comes (liveHost o signals undefinedShift) code ⟨d.machine, fun _ => 0#8⟩
      (.op (.call .idleWait) k) f → f.machine.env.WaitsOut o signals

instance (h : Helper) (m : Machine JitLive) : Decidable (h.Unseen undefinedShift m) :=
  inferInstanceAs (Decidable (_ ∨ _ → _ = true → _ = false ∧ _ = false))

def Op.passes {E : Type} (test : Helper → Machine E → Bool) : Op → Machine E → Bool
  | .call h, m => test h m
  | _, _ => true

/-- Every helper called on the way of a frame through code passes a test. -/
def Code.passesCalls {E : Type} (P : Host E) (test : Helper → Machine E → Bool) :
    Code → Frame E → Bool
  | .op o k, f =>
    o.passes test f.machine &&
      match o.run P f with
      | some g => k.passesCalls P test g
      | none => true
  | .cond c x y taken fallen, f =>
    if c.eval (f.value x) (f.value y) then taken.passesCalls P test f
    else fallen.passesCalls P test f
  | _, _ => true

theorem passesCalls_iff {E : Type} {P : Host E} {test : Helper → Machine E → Bool} {k : Code}
    {f : Frame E} :
    k.passesCalls P test f = true ↔
      ∀ h k' g, Code.Comes P k f (.op (.call h) k') g → test h g.machine = true := by
  induction k generalizing f with
  | op o k ih =>
    rw [Code.passesCalls, Bool.and_eq_true]
    constructor
    · rintro ⟨first, rest⟩ h k' g comes
      cases comes with
      | here => exact first
      | op ran later =>
        rw [ran] at rest
        exact ih.mp rest h k' g later
    · intro passes
      constructor
      · cases o with
        | call h => exact passes h k f .here
        | _ => rfl
      · split
        · rename_i g ran
          exact ih.mpr fun h k' g later => passes h k' g (.op ran later)
        · rfl
  | cond c x y taken fallen ihTaken ihFallen =>
    rw [Code.passesCalls]
    constructor
    · intro passes h k' g comes
      cases comes with
      | taken holds rest =>
        rw [if_pos holds] at passes
        exact ihTaken.mp passes h k' g rest
      | fallen fails rest =>
        rw [fails] at passes
        exact ihFallen.mp passes h k' g rest
    · intro passes
      split
      · rename_i holds
        exact ihTaken.mpr fun h k' g rest => passes h k' g (.taken holds rest)
      · rename_i fails
        exact ihFallen.mpr fun h k' g rest =>
          passes h k' g (.fallen (Bool.eq_false_iff.mpr fails) rest)
  | goto pc | backedge t | ret =>
    refine iff_of_true rfl fun h k' g comes => ?_
    cases comes

variable (o) (signals) (undefinedShift) in
/-- The test of the calls a dispatcher's next step makes. -/
def Dispatcher.undisturbed (d : Dispatcher JitLive) : Bool :=
  match d.position with
  | .running t a =>
    match t.block a with
    | some code => code.passesCalls (liveHost o signals undefinedShift)
        (fun h m => decide (h.Unseen undefinedShift m) &&
          (h != .idleWait || decide (m.env.WaitsOut o signals))) ⟨d.machine, fun _ => 0#8⟩
    | none => true
  | _ => true

theorem undisturbed_iff {d : Dispatcher JitLive} :
    Undisturbed o undefinedShift signals d ↔ d.undisturbed o undefinedShift signals = true := by
  unfold Dispatcher.undisturbed
  split
  · rename_i t a here
    split
    · rename_i code found
      rw [passesCalls_iff]
      constructor
      · intro undisturbed h k g comes
        have unseen := undisturbed.unseen t a code h k g here found comes
        have waits : (h != .idleWait || decide (g.machine.env.WaitsOut o signals)) = true := by
          by_cases wait : h = .idleWait
          · subst wait
            exact decide_eq_true (undisturbed.waits t a code k g here found comes)
          · rw [bne_iff_ne.mpr wait, Bool.true_or]
        exact Bool.and_eq_true_iff.mpr ⟨decide_eq_true unseen, waits⟩
      · intro passes
        constructor
        · intro t' a' code' h k g here' found' comes
          cases here.symm.trans here'
          cases found.symm.trans found'
          exact of_decide_eq_true (Bool.and_eq_true_iff.mp (passes h k g comes)).1
        · intro t' a' code' k g here' found' comes
          cases here.symm.trans here'
          cases found.symm.trans found'
          exact of_decide_eq_true (Bool.and_eq_true_iff.mp (passes .idleWait k g comes)).2
    · rename_i missing
      refine iff_of_true ⟨?_, ?_⟩ rfl
      · intro t' a' code' h k g here' found'
        cases here.symm.trans here'
        cases missing.symm.trans found'
      · intro t' a' code' k g here' found'
        cases here.symm.trans here'
        cases missing.symm.trans found'
  · rename_i outside
    refine iff_of_true ⟨?_, ?_⟩ rfl
    · exact fun t a _ _ _ _ here => absurd here (outside t a)
    · exact fun t a _ _ _ here => absurd here (outside t a)

instance (d : Dispatcher JitLive) : Decidable (Undisturbed o undefinedShift signals d) :=
  decidable_of_iff _ undisturbed_iff.symm

/-- The engine with the flag has taken steps, and the plain one has followed. -/
def Advances (o : Outside) (signals : Signals) (undefinedShift : Byte → BitVec 32)
    (backend : Backend) (d : Dispatcher JitLive) (e : JitLive) : Prop :=
  ∃ (n : Nat) (d' : Dispatcher JitLive) (e' : JitLive),
    Run.after (Dispatcher.step (liveHost o signals undefinedShift) ⟨backend, false, true⟩) (n + 1) d =
        some d' ∧
      Retold d'.machine.env e' ∧ Leads o undefinedShift backend (d.plain e) (d'.plain e')

theorem Coherent.waitsLast {d : Dispatcher JitLive} (coherent : Coherent ⟨backend, false, true⟩ d)
    {t : Trace} {a : Word} {code : Code} (here : d.position = .running t a)
    (found : t.block a = some code) : code.waitsLast = true := by
  obtain ⟨cached, -⟩ := coherent.current t a (.inl here)
  obtain ⟨-, memory, rest, made, -⟩ := coherent.traced _ t cached
  obtain ⟨i, inside⟩ := block_here found
  exact codegen_waitsLast made (a, code) (List.mem_of_getElem? inside)

/-- A wait takes the one engine three steps to the test of the loop, and the other one three for
each pass and two more. -/
theorem wait_retold {d : Dispatcher JitLive} (coherent : Coherent ⟨backend, false, true⟩ d)
    {t : Trace} {a pc : Word} {code : Code} (here : d.position = .running t a)
    (found : t.block a = some code) {f : Frame JitLive}
    (comes : Code.Comes (liveHost o signals undefinedShift) code ⟨d.machine, fun _ => 0#8⟩
      (.op (.call .idleWait) (.backedge pc)) f) {x : Reg}
    (loop : idleDelayLoop f.machine.vm.memory pc = some x)
    (waits : f.machine.env.WaitsOut o signals) (retold : Retold f.machine.env e) :
    ∃ (d' : Dispatcher JitLive) (e' : JitLive),
      Run.after (Dispatcher.step (liveHost o signals undefinedShift) ⟨backend, false, true⟩) 3 d =
          some d' ∧
        Retold d'.machine.env e' ∧
        Leads o undefinedShift backend
          (Dispatcher.plain e { d with machine := f.machine, position := .backedge t pc })
          (d'.plain e') := by
  obtain ⟨n, running, expired, waited⟩ := waits.idleWait
  obtain ⟨memory, i, rest, laid, header, next, stored, run⟩ :=
    wait_polls coherent here found comes loop waited.symm waits.goesOn expired
  have spins := spinsIn_plain laid header next
  obtain ⟨e₁, v, retold₁, leads⟩ := @spins_out o undefinedShift backend
    (Dispatcher.plain e { d with machine := f.machine, position := .backedge t pc }) t.plain i pc x
    spins rfl stored f.machine.env retold waits.goesOn n running
  obtain ⟨e₂, retold₂, yields⟩ := @passed_retold o undefinedShift signals _ _ retold₁ i
  refine ⟨_, e₂, run, retold₂, leads.trans ⟨2, yields.map fun o' signals' _ told => ?_⟩⟩
  -- The last pass finds the timer at zero.
  have zero : e₂.live.delayTimer = 0#8 := retold₂.delayTimer.trans (passed_expired i expired)
  have step₁ := @spins_enters undefinedShift backend
    { Dispatcher.plain e { d with machine := f.machine, position := .backedge t pc } with
      machine := { f.machine with vm := f.machine.vm.setReg x v, env := e₁ } } t.plain pc rfl
    (retold₁.programOver.trans waits.goesOn) o' signals'
  have step₂ := @spins_polls undefinedShift backend
    { Dispatcher.plain e { d with machine := f.machine, position := .backedge t pc } with
      machine := { f.machine with vm := f.machine.vm.setReg x v, env := e₁ }
      position := .running t.plain pc } t.plain i pc x spins rfl o' signals'
  dsimp only at step₂
  rw [Option.some.inj told, zero, setReg_setReg] at step₂
  exact Run.after_succ.mpr ⟨_, step₁, step₂⟩

theorem running_retold {d : Dispatcher JitLive} (coherent : Coherent ⟨backend, false, true⟩ d)
    (undisturbed : Undisturbed o undefinedShift signals d) (retold : Retold d.machine.env e)
    {t : Trace} {a : Word} {code : Code} (here : d.position = .running t a)
    (found : t.block a = some code) {m : Machine JitLive} {exit : Exit}
    (ran : code.run (liveHost o signals undefinedShift) ⟨d.machine, fun _ => 0#8⟩ =
      some (m, exit)) :
    Advances o signals undefinedShift backend d e := by
  -- The block up to a wait is one step of the plain engine, whichever way it is left.
  obtain ⟨g, e', retold', yields, exits⟩ := code_retold (coherent.waitsLast here found) ran retold
    fun k f h comes => undisturbed.unseen t a code h k f here found comes
  have plain : Leads o undefinedShift backend (d.plain e)
      (Dispatcher.plain e' { d with machine := g, position := Dispatcher.leave t exit }) := by
    refine leads_step (yields.map fun o' signals' _ told => ?_)
    have block : t.plain.block a = some code.plain := by
      rw [plain_block, found]
      rfl
    have stepped := @step_running JitLive (liveHost o' signals' undefinedShift)
      ⟨backend, false, false⟩ (d.plain e) t.plain a code.plain _ exit
      (congrArg Position.plain here) block told
    rw [← plain_leave] at stepped
    exact stepped
  have stepped := @step_running _ (liveHost o signals undefinedShift) ⟨backend, false, true⟩ d t a
    code m exit here found ran
  obtain rfl | ⟨pc, f, rfl, rfl, waited, comes⟩ := exits
  · exact ⟨0, _, e', stepped, retold', plain⟩
  obtain ⟨memory, origin⟩ := coherent.origin (.inl here)
  obtain ⟨k, inside⟩ := block_here found
  have stored := wait_pc origin.laid inside comes
  cases loop : idleDelayLoop f.machine.vm.memory pc with
  | none =>
    -- There is no such loop, and so no wait.
    have same : f.machine.idleWait (liveHost o signals undefinedShift) = f.machine := by
      unfold Machine.idleWait
      rw [stored, loop]
    rw [same] at waited
    subst waited
    exact ⟨0, _, e', stepped, retold', plain⟩
  | some x =>
    obtain ⟨d', e'', run, retold'', leads⟩ := wait_retold coherent here found comes loop
      (undisturbed.waits t a code _ f here found comes) retold'
    exact ⟨2, d', e'', run, retold'', plain.trans leads⟩

theorem step_retold {d d' : Dispatcher JitLive} (coherent : Coherent ⟨backend, false, true⟩ d)
    (undisturbed : Undisturbed o undefinedShift signals d) (retold : Retold d.machine.env e)
    (stepped : Dispatcher.step (liveHost o signals undefinedShift) ⟨backend, false, true⟩ d =
      some d') :
    Advances o signals undefinedShift backend d e ∨
      (d'.position = .stopped .quit ∧
        ∃ p, Leads o undefinedShift backend (d.plain e) p ∧ QuitAlike d' p) ∨
      d'.position = .stopped .errer := by
  have unfolded := stepped
  unfold Dispatcher.step at unfolded
  cases here : d.position with
  | top =>
    rw [here] at unfolded
    dsimp only at unfolded
    have position : (d.plain e).position = .top := congrArg Position.plain here
    -- The caches agree: a miss compiles the same trace, without the waits.
    cases hit : d.cache d.machine.vm.programCounter with
    | none =>
      rw [hit] at unfolded
      cases unfolded
      refine .inl ⟨0, _, e, stepped, ?_, leads_step (.unasked rfl rfl fun o' signals' _ => ?_)⟩
      · have same : (d.compile ⟨backend, false, true⟩).machine.env = d.machine.env := by
          unfold Dispatcher.compile
          dsimp only
          split <;> rfl
        rw [same]
        exact retold
      · have missed : (d.plain e).cache (d.plain e).machine.vm.programCounter = none :=
          congrArg (Option.map Trace.plain) hit
        unfold Dispatcher.step
        rw [position]
        dsimp only
        rw [missed, ← compile_plain]
    | some t =>
      rw [hit] at unfolded
      cases unfolded
      refine .inl ⟨0, _, e, stepped, retold, leads_step (.unasked rfl rfl fun o' signals' _ => ?_)⟩
      have cached : (d.plain e).cache (d.plain e).machine.vm.programCounter = some t.plain :=
        congrArg (Option.map Trace.plain) hit
      unfold Dispatcher.step
      rw [position]
      dsimp only
      rw [cached]
      rfl
  | running t a =>
    obtain ⟨code, found⟩ := coherent.block_isSome _ here
    cases ran : code.run (liveHost o signals undefinedShift) ⟨d.machine, fun _ => 0#8⟩ with
    | none =>
      simp only [here, found, ran, Option.bind_eq_bind, Option.bind_some] at unfolded
      cases unfolded
      exact .inr (.inr rfl)
    | some left => exact .inl (running_retold coherent undisturbed retold here found ran)
  | backedge t a =>
    have position : (d.plain e).position = .backedge t.plain a := congrArg Position.plain here
    rw [here] at unfolded
    dsimp only at unfolded
    -- Of the two hosts only the rings differ, and a back edge does not look at them.
    have same : e.programOver = d.machine.env.programOver := retold.programOver
    refine .inl ⟨0, d', e, stepped, ?_, leads_step ?_⟩
    · split at unfolded <;> cases unfolded <;> exact retold
    · split at unfolded
      · rename_i ended
        cases unfolded
        refine .unasked rfl rfl fun o' signals' _ => ?_
        unfold Dispatcher.step
        rw [position]
        exact if_pos (same.trans ended)
      · rename_i goesOn
        cases unfolded
        refine .unasked rfl rfl fun o' signals' _ => ?_
        unfold Dispatcher.step
        rw [position]
        exact if_neg fun ended => goesOn (same.symm.trans ended)
  | returned =>
    rw [here] at unfolded
    cases unfolded
    obtain ⟨e', retold', leads⟩ | quits :=
      @service_retold o undefinedShift backend signals e d here retold
    · exact .inl ⟨0, _, e', stepped, retold', leads⟩
    · exact .inr (.inl quits)
  | stopped why =>
    rw [here] at unfolded
    cases unfolded

/-! ### Runs -/

theorem quits_alike {n : Nat} {last : Dispatcher JitLive} (quit : last.position = .stopped .quit)
    {d : Dispatcher JitLive} (coherent : Coherent ⟨backend, false, true⟩ d)
    (retold : Retold d.machine.env e)
    (run : Run.after (Dispatcher.step (liveHost o signals undefinedShift) ⟨backend, false, true⟩) n
      d = some last)
    (undisturbed : ∀ k < n, ∀ c, Run.after (Dispatcher.step (liveHost o signals undefinedShift)
      ⟨backend, false, true⟩) k d = some c → Undisturbed o undefinedShift signals c) :
    ∃ p, Leads o undefinedShift backend (d.plain e) p ∧ QuitAlike last p := by
  have ends {c : Dispatcher JitLive} {why : Stop} (stopped : c.position = .stopped why) :
      Dispatcher.step (liveHost o signals undefinedShift) ⟨backend, false, true⟩ c = none := by
    unfold Dispatcher.step
    rw [stopped]
  -- On what is left of the run, since a wait is three steps of it at once.
  induction n using Nat.strong_induction_on generalizing d e with
  | _ n ih =>
  cases n with
  | zero =>
    cases run
    exact ⟨_, .refl _, congrArg Position.plain quit, rfl, retold.delayTimer⟩
  | succ n =>
    have whole := run
    rw [Run.after_head, Option.bind_eq_some_iff] at run
    obtain ⟨d', first, rest⟩ := run
    -- A dispatcher that has stopped is the last one.
    have stays {why : Stop} (stopped : d'.position = .stopped why) : d' = last := by
      obtain rfl := Nat.le_zero.mp (Run.stops_last (m := 0) rfl (ends stopped) rest)
      exact Option.some.inj rest
    obtain ⟨k, d'', e', onwards, retold', leads⟩ | ⟨quits, p, leads, alike⟩ | failed :=
      step_retold coherent (undisturbed 0 (Nat.succ_pos n) d rfl) retold first
    · have within := Run.stops_last whole (ends quit) onwards
      obtain ⟨u, reached, later⟩ := Run.after_le within whole
      cases onwards.symm.trans reached
      have coherent' := Run.invariant (fun _ _ coherent => step_coherent _ _ coherent) coherent
        onwards
      obtain ⟨p, leads', alike⟩ := ih (n + 1 - (k + 1)) (by omega) coherent' retold' later
        fun j small c there => undisturbed (k + 1 + j) (by omega) c (Run.after_trans onwards there)
      exact ⟨p, leads.trans leads', alike⟩
    · cases stays quits
      exact ⟨p, leads, alike⟩
    · cases stays failed
      cases quit.symm.trans failed

end

end Jit

open Jit

/-- The JIT without `--elide-idle` is quit in the state of `d`, for some ticks, key masks and
signals. -/
def PlainQuits (o : Outside) (undefinedShift : Byte → BitVec 32) (backend : Backend)
    (rom : List Byte) (tick : Int) (d : Dispatcher JitLive) : Prop :=
  ∃ o' signals n p, SameHost o o' ∧
    Run.after (Dispatcher.step (liveHost o' signals undefinedShift) ⟨backend, false, false⟩) n
      (start (VM.boot rom) (.boot tick)) = some p ∧
    QuitAlike d p

theorem boot_retold (tick : Int) : Retold (.boot tick) (.boot tick) := by
  refine retold_self ?_ (Nat.zero_lt_succ 9)
  rintro ⟨i, -, pressed⟩
  exact absurd (BitVec.getLsbD_zero.symm.trans pressed) Bool.false_ne_true

def waitOneTick : List Byte :=
  [0x61, 0x01, 0xF1, 0x15, 0xF1, 0x07, 0x31, 0x00, 0x12, 0x04, 0x12, 0x0A]

/-- A tick and the quit key in every service. -/
def quitAsExpired : Outside :=
  { quietOutside with ticks := fun k => k + 1, keys := fun _ => quitBit }

/-- A signal comes in at the second safepoint. -/
def secondSignal : Signals := ⟨fun k => k == 1, 10⟩

/-- A wait broken off by the quit key leaves the register zeroed at the head of the loop, with time
left. -/
example : ∃ d, Run.after (Dispatcher.step (liveHost quitAtOnce noSignals fun _ => 0#32)
      ⟨.libgccjit, false, true⟩) 8 (start (VM.boot waitThenSpin) (.boot 0)) = some d ∧
    d.position = .stopped .quit ∧ d.machine.vm.programCounter = 0x204#16 ∧
    d.machine.vm.regs 1#4 = 0#8 ∧ d.machine.env.live.delayTimer = 5#8 :=
  ⟨_, rfl, rfl, rfl, rfl, rfl⟩

end ChipEight
