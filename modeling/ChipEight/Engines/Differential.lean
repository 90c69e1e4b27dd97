import ChipEight.Engines.Report
import ChipEight.Jit.Waiting
import ChipEight.Opt.Numbers

/-! scripts/bench_diff.py from end to end.

The script runs a JIT, reads how many instructions that retired, has the interpreter run
exactly as many, and compares the reports. A process is known by the text it writes to
`stderr`; the processes of the two engines are the runs of their models.
-/

set_option autoImplicit false

namespace ChipEight.Diff

open Asm (Text)

/-! ## The script -/

/-- A ROM, and what the script passes on to every run of it. `argparse` takes no option for
the name of a ROM. -/
structure Session where
  rom : List Byte
  name : Text
  named : name.head? ≠ some '-'
  seed : Int
  keys : KeyMode

def Session.argv (s : Session) (instructions : Int) : List Text :=
  [s.name, "--instructions".toList, decimal instructions, "--seed".toList, decimal s.seed,
    "--keys".toList, keyModeText s.keys]

section
variable (U : Opt.Unicode) (stderr : Session → Engine → Int → Text) (s : Session)
  (instructions : Int)

/-- `run`; `none` where the script exits. -/
def run (engine : Engine) (instructions : Int) : Option Dict :=
  readReport (stderr s engine instructions)

/-- `ref`: another run of the interpreter unless the counts are the same. -/
def reference (base : Dict) (retired baseRetired : Text) : Option Dict :=
  if retired ≠ baseRetired then (Opt.int U 10 retired).bind (run stderr s .interp) else some base

/-- The body of the loop over the engines; a missing rate is a `KeyError`. -/
def checkEngine (base : Dict) (engine : Engine) : Option (List Text) := do
  let got ← run stderr s engine instructions
  let _ ← got.lookup "rate".toList
  let retired ← got.lookup "retired".toList
  let baseRetired ← base.lookup "retired".toList
  let ref ← reference U stderr s base retired baseRetired
  some (compare ref Engine.interp.name got engine.name)

/-- The body of the loop over the ROMs: how many engines diverged. -/
def checkRom (engines : List Engine) : Option Nat := do
  let base ← run stderr s .interp instructions
  let _ ← base.lookup "rate".toList
  let _ ← base.lookup "retired".toList
  let diffs ← engines.mapM (checkEngine U stderr s instructions base)
  some (diffs.countP (!·.isEmpty))

end

/-- The exit status of the script. -/
def main (U : Opt.Unicode) (stderr : Session → Engine → Int → Text) (sessions : List Session)
    (instructions : Int) (engines : List Engine) : Option Nat := do
  let failures ← sessions.mapM fun s => checkRom U stderr s instructions engines
  some (if failures.sum ≠ 0 then 1 else 0)

/-! ## The processes -/

/-- An `int` counter. -/
def counted (n : Nat) : Int := (BitVec.ofNat 32 n).toInt

/-- The report of the interpreter behind its main loop. -/
def interpReport (c : Command) (t : State Bench) (why : Break) (elapsed : Printed)
    (rate : Option Printed) : Report where
  engine := .interp
  counter := counted (match why with
    | .error _ => t.env.retired - 1
    | _ => t.env.retired)
  seed := c.seed
  compiled := 0
  flushes := 0
  vm := t.vm
  env := t.env
  elapsed := elapsed
  rate := rate

def engineOf : Jit.Backend → Engine
  | .libgccjit => .libgccjit
  | .llvm => .llvm

/-- The report of a JIT behind its main loop. -/
def jitReport (backend : Jit.Backend) (c : Command) (d : Jit.Dispatcher Bench) (elapsed : Printed)
    (rate : Option Printed) : Report where
  engine := engineOf backend
  counter := counted d.traceCount
  seed := c.seed
  compiled := d.compiled
  flushes := d.flushes
  vm := d.machine.vm
  env := d.machine.env
  elapsed := elapsed
  rate := rate

section
variable (rand : BitVec 32 → Nat → BitVec 32) (undefinedShift : Byte → BitVec 32)

/-- What the interpreter may write where its main loop ends, given that some time passes. -/
def InterpWrites (s : Session) (instructions : Int) (text : Text) : Prop :=
  ∀ c n t why, parseArgs (s.argv instructions) = some c →
    Run.after (benchLoop (rand c.seed) undefinedShift) n (benchStart s.rom c) =
      some ⟨t, some why⟩ →
    ∃ elapsed rate, text = (interpReport c t why elapsed (some rate)).text

/-- The build of a JIT for the benchmark. -/
def benchBuild (backend : Jit.Backend) : Jit.Build := ⟨backend, true, false⟩

def jitStart (s : Session) (c : Command) : Jit.Dispatcher Bench :=
  Jit.start (VM.boot s.rom) (.initial c.budget (clockCap c.budget) c.keyMode)

/-- A JIT has come to `d` after `n` steps. -/
def JitRuns (backend : Jit.Backend) (s : Session) (c : Command) (n : Nat)
    (d : Jit.Dispatcher Bench) : Prop :=
  Run.after (Jit.Dispatcher.step (Jit.benchHost (rand c.seed) undefinedShift) (benchBuild backend))
    n (jitStart s c) = some d

/-- What a JIT may write where its main loop ends. -/
def JitWrites (backend : Jit.Backend) (s : Session) (instructions : Int) (text : Text) : Prop :=
  ∀ c n d, parseArgs (s.argv instructions) = some c → JitRuns rand undefinedShift backend s c n d →
    d.position = .stopped .quit ∨ d.position = .stopped .codegenFailed →
    ∃ elapsed rate, text = (jitReport backend c d elapsed (some rate)).text

/-- A JIT runs until its budget is spent. Neither that run nor the interpreter's rerun gets to
its clock cap, and the tick fits its `int`. -/
structure Finishes (backend : Jit.Backend) (s : Session) (instructions : Int) (c : Command)
    (n : Nat) (d : Jit.Dispatcher Bench) : Prop where
  accepted : parseArgs (s.argv instructions) = some c
  run : JitRuns rand undefinedShift backend s c n d
  quit : d.position = .stopped .quit
  spent : c.budget ≤ d.machine.env.retired
  cap : (d.machine.env.now : Int) < clockCap d.machine.env.retired
  tick : d.machine.env.now / Bench.instrPerTick < 2 ^ 31

/-- The script's rerun of the interpreter: it takes the JIT's count as its budget, and its main
loop stops by itself behind as many instructions, in the machine `d` has. -/
structure Rerun (s : Session) (c : Command) (d : Jit.Dispatcher Bench) (t : State Bench) : Prop where
  accepted : parseArgs (s.argv d.machine.env.retired) =
    some { c with budget := d.machine.env.retired }
  stops : Run.after (benchLoop (rand c.seed) undefinedShift) d.machine.env.retired
    (benchStart s.rom { c with budget := d.machine.env.retired }) = some ⟨t, some .done⟩
  vm : t.vm = d.machine.vm
  retired : t.env.retired = d.machine.env.retired
  delay : t.env.syncTimers.delayTimer = d.machine.env.syncTimers.delayTimer
  sound : t.env.syncTimers.soundTimer = d.machine.env.syncTimers.soundTimer

end

/-! ## The command line -/

/-- What a process makes of the script's arguments. -/
def Session.command (s : Session) (budget : Int) : Command :=
  ⟨some s.name, budget, BitVec.ofNat 32 (strtoulLeading (decimal s.seed)), s.keys⟩

theorem parse_argv (s : Session) (instructions : Int) :
    parseArgs (s.argv instructions) =
      if atoll (decimal instructions) ≤ 0 then none
      else some (s.command (atoll (decimal instructions))) := by
  have noOption {t : Text} (dashed : t.head? = some '-') : (s.name == t) = false := by
    rw [beq_eq_false_iff_ne]
    rintro rfl
    exact s.named dashed
  have positional : Command.initial.positional s.name = some { Command.initial with
      rom := some s.name } := by
    rw [Command.positional, if_neg (by rw [beq_iff_eq]; exact s.named)]
    rfl
  have mode : KeyMode.ofText (keyModeText s.keys) = some s.keys := by cases s.keys <;> rfl
  have parsed : Command.initial.parse (s.argv instructions) =
      some (s.command (atoll (decimal instructions))) := by
    rw [Session.argv, Command.parse, noOption rfl, noOption rfl, noOption rfl, positional]
    show (KeyMode.ofText (keyModeText s.keys)).bind _ = _
    rw [mode]
    rfl
  rw [parseArgs, parsed]
  show (if (false || decide (atoll (decimal instructions) ≤ 0)) = true then _ else _) = _
  simp

theorem parse_count (s : Session) {n : Nat} (positive : 0 < n) (small : (n : Int) ≤ longLongMax) :
    parseArgs (s.argv n) = some (s.command n) := by
  have text : decimal n = Nat.toDigits 10 n := if_neg (by omega)
  rw [parse_argv, text, atoll_toDigits small, if_neg (by omega)]

theorem digits_of_values {t : Text} {ds : List Nat} (values : t.map Asm.digitValue = ds.map some)
    (small : ∀ d ∈ ds, d < 10) : List.Forall₂ (Opt.Digit 10) t ds := by
  induction t generalizing ds with
  | nil =>
    rw [List.map_eq_nil_iff.mp values.symm]
    exact .nil
  | cons c t ih =>
    cases ds with
    | nil => cases values
    | cons d ds =>
      obtain ⟨first, rest⟩ := List.cons.inj values
      exact .cons ⟨first, small d List.mem_cons_self⟩
        (ih rest fun d' later => small d' (List.mem_cons_of_mem d later))

theorem parse_command {s : Session} {instructions : Int} {c : Command}
    (accepted : parseArgs (s.argv instructions) = some c) : c = s.command c.budget := by
  rw [parse_argv] at accepted
  split at accepted
  · cases accepted
  · cases accepted
    rfl

theorem int_decimal (U : Opt.Unicode) (n : Nat) : Opt.int U 10 (decimal n) = some (n : Int) := by
  have text : decimal n = Nat.toDigits 10 n := if_neg (by omega)
  obtain ⟨ds, small, shape, worth⟩ := digits_value n
  have read : Asm.numeral 10 (Nat.toDigits 10 n) = some n := by
    rw [Opt.numeral_iff]
    exact ⟨List.ne_nil_of_length_pos Nat.length_toDigits_pos, ds, digits_of_values shape small,
      worth.symm⟩
  have good : Opt.decimal (Nat.toDigits 10 n) = true := (Opt.decimal_iff _).mpr ⟨n, read⟩
  have unsigned := (Opt.unsigned_hexadecimal fun c here =>
    Opt.digit_xdigit (Opt.decimal_all good c here)).1
  rw [text, Opt.int_plain U (Opt.plain_decimal good) unsigned (Opt.dropPrefix_ten _), read]
  rfl

/-! ## Two engines -/

section
variable {rand : BitVec 32 → Nat → BitVec 32} {undefinedShift : Byte → BitVec 32}

/-- A run in which the end is noticed at some instruction: the loop stops at the first one. -/
theorem benchLoop_stops {rng : Nat → BitVec 32} {start t : State Bench} {n : Nat}
    (run : benchRun rng undefinedShift n start = some t) (positive : 0 < n)
    (isOver : t.env.done = true) :
    ∃ k u, 0 < k ∧ k ≤ n ∧ benchRun rng undefinedShift k start = some u ∧
      Run.after (benchLoop rng undefinedShift) k ⟨start, none⟩ = some ⟨u, some .done⟩ := by
  have some_ : ∃ k, 0 < k ∧ ∃ u, benchRun rng undefinedShift k start = some u ∧
      u.env.done = true := ⟨n, positive, t, run, isOver⟩
  classical
  obtain ⟨first, u, reached, done⟩ := Nat.find_spec some_
  obtain ⟨m, isFirst⟩ : ∃ m, Nat.find some_ = m + 1 := ⟨Nat.find some_ - 1, by omega⟩
  rw [isFirst] at reached
  refine ⟨m + 1, u, Nat.succ_pos m, ?_, reached, benchLoop_run reached ?_ done⟩
  · rw [← isFirst]
    exact Nat.find_min' some_ ⟨positive, t, run, isOver⟩
  · intro k v within above reached'
    by_contra going
    exact Nat.find_min some_ (m := k) (by omega)
      ⟨above, v, reached', Bool.not_eq_false _ ▸ going⟩

variable {backend : Jit.Backend} {s : Session} {instructions : Int} {c : Command} {n : Nat}
  {d : Jit.Dispatcher Bench}

theorem Finishes.heard (finishes : Finishes rand undefinedShift backend s instructions c n d) :
    ∃ t, benchRun (rand c.seed) undefinedShift d.machine.env.retired (benchStart s.rom c).state =
        some t ∧
      Patient (rand c.seed) undefinedShift (benchStart s.rom c).state
        (d.machine.env.retired - 1) ∧
      d.machine.env.Agree t.env ∧ t.vm = d.machine.vm := by
  obtain ⟨t, heard, agree, inStep⟩ := Jit.run_heard (b := benchBuild backend) rfl finishes.run
    (by rw [finishes.quit]; simp) finishes.tick
  refine ⟨t, heard.run, heard.patient, agree, ?_⟩
  unfold Jit.InStep at inStep
  rw [finishes.quit] at inStep
  exact inStep.vm

theorem Finishes.count (finishes : Finishes rand undefinedShift backend s instructions c n d) :
    0 < d.machine.env.retired ∧ (d.machine.env.retired : Int) ≤ longLongMax := by
  have positive := parseArgs_some finishes.accepted
  have spent := finishes.spent
  have cap := finishes.cap
  have high : clockCap d.machine.env.retired < 2 ^ 63 := BitVec.toInt_lt
  have now : d.machine.env.retired ≤ d.machine.env.now := Nat.le_add_right _ _
  have isMax : longLongMax = 2 ^ 63 - 1 := rfl
  omega

theorem Finishes.rerun (finishes : Finishes rand undefinedShift backend s instructions c n d) :
    ∃ t, Rerun rand undefinedShift s c d t := by
  obtain ⟨t, here, patient, agree, vm⟩ := finishes.heard
  obtain ⟨positive, small⟩ := finishes.count
  have now : d.machine.env.now = t.env.now :=
    congrArg (fun a : Clock => a.retired + a.pollClock) agree.clock
  have cap := finishes.cap
  rw [now] at cap
  obtain ⟨delay, sound⟩ := agree.timers finishes.tick
  have synced := Bench.syncTimers_rebudget d.machine.env.retired (clockCap d.machine.env.retired)
    t.env
  refine ⟨_, ?_, rerun_stops here positive patient finishes.spent cap, vm,
    (congrArg Clock.retired agree.clock).symm, ?_, ?_⟩
  · rw [parse_count s positive small, parse_command finishes.accepted]
    rfl
  · exact (congrArg Bench.delayTimer synced).trans delay.symm
  · exact (congrArg Bench.soundTimer synced).trans sound.symm

/-- A report of the interpreter shows the state of the JIT where it was taken behind as many
instructions. -/
theorem alike_of_agree {r r' : Report} {t : State Bench} (vm : r.vm = r'.vm)
    (agree : r'.env.Agree t.env) (range : r'.env.InRange)
    (delay : r.env.syncTimers.delayTimer = t.env.syncTimers.delayTimer)
    (sound : r.env.syncTimers.soundTimer = t.env.syncTimers.soundTimer)
    (retired : r.env.retired = t.env.retired) : Alike r r' := by
  obtain ⟨delay', sound'⟩ := agree.timers range
  have counted : r'.env.retired = t.env.retired := congrArg Clock.retired agree.clock
  exact ⟨by rw [vm], by rw [vm], by rw [vm], by rw [vm], delay.trans delay'.symm,
    sound.trans sound'.symm, by rw [vm], retired.trans counted.symm⟩

/-! ## The comparison -/

variable {U : Opt.Unicode} {stderr : Session → Engine → Int → Text}

theorem Finishes.base (finishes : Finishes rand undefinedShift backend s instructions c n d)
    (writes : InterpWrites rand undefinedShift s instructions (stderr s .interp instructions)) :
    ∃ k u elapsed rate, k ≤ d.machine.env.retired ∧
      benchRun (rand c.seed) undefinedShift k (benchStart s.rom c).state = some u ∧
      stderr s .interp instructions = (interpReport c u .done elapsed (some rate)).text := by
  obtain ⟨t, run, -, agree, -⟩ := finishes.heard
  have isOver : t.env.done = true := by
    have budget : t.env.budget = c.budget := by
      have kept : d.machine.env.budget = t.env.budget := congrArg Clock.budget agree.clock
      have keeps (u v : Jit.Dispatcher Bench) (low : u.machine.env.budget = c.budget)
          (next : Jit.Dispatcher.step (Jit.benchHost (rand c.seed) undefinedShift)
            (benchBuild backend) u = some v) : v.machine.env.budget = c.budget :=
        (Jit.step_keeps (Jit.benchHost_watches (rand c.seed) undefinedShift) next).budget.trans low
      exact kept.symm.trans (Run.invariant keeps rfl finishes.run)
    have count : d.machine.env.retired = t.env.retired := congrArg Clock.retired agree.clock
    have spent := finishes.spent
    rw [count, ← budget] at spent
    exact Bool.or_eq_true_iff.mpr (.inl (decide_eq_true spent))
  obtain ⟨k, u, -, within, reached, stops⟩ := benchLoop_stops run finishes.count.1 isOver
  obtain ⟨elapsed, rate, text⟩ := writes c k u .done finishes.accepted stops
  exact ⟨k, u, elapsed, rate, within, reached, text⟩

theorem Finishes.silent (finishes : Finishes rand undefinedShift backend s instructions c n d)
    (interp : ∀ count, InterpWrites rand undefinedShift s count (stderr s .interp count))
    (jit : JitWrites rand undefinedShift backend s instructions
      (stderr s (engineOf backend) instructions))
    {base : Dict} (read : Diff.run stderr s .interp instructions = some base) :
    checkEngine U stderr s instructions base (engineOf backend) = some [] := by
  obtain ⟨k, u, elapsed, rate, -, reached, text⟩ := finishes.base (interp instructions)
  obtain ⟨elapsed', rate', text'⟩ := jit c n d finishes.accepted finishes.run (.inl finishes.quit)
  set r := interpReport c u .done elapsed (some rate) with isR
  set r' := jitReport backend c d elapsed' (some rate') with isR'
  obtain ⟨state, readBase, shows⟩ := readReport_text r
  obtain ⟨got, readGot, shows'⟩ := readReport_text r'
  obtain rfl : base = state := by
    rw [Diff.run, text, readBase] at read
    exact (Option.some.inj read).symm
  have gotRun : Diff.run stderr s (engineOf backend) instructions = some got := by
    rw [Diff.run, text', readGot]
  obtain ⟨v, rated⟩ := Option.isSome_iff_exists.mp shows'.rate
  have synced (e : Bench) : e.syncTimers.retired = e.retired := (Bench.keeps_syncTimers e).retired
  have retired' : got.lookup "retired".toList = some (decimal d.machine.env.retired) := by
    rw [shows'.retired, synced]
    rfl
  have retired : base.lookup "retired".toList = some (decimal u.env.retired) := by
    rw [shows.retired, synced]
    rfl
  obtain ⟨t, here, -, agree, vm⟩ := finishes.heard
  -- Whatever reference the script compares with, alike reports make it silent.
  have reads {ref : Dict} {q : Report} (shown : Shows q ref) (alike : Alike q r')
      (chosen : reference U stderr s base (decimal d.machine.env.retired)
        (decimal u.env.retired) = some ref) :
      checkEngine U stderr s instructions base (engineOf backend) = some [] := by
    unfold checkEngine
    simp only [gotRun, rated, retired', retired, chosen, Option.bind_eq_bind, Option.bind_some]
    rw [(shown.silent_iff q r' shows' _ _).mpr alike]
  by_cases same : d.machine.env.retired = u.env.retired
  · -- The first run already stopped at that count.
    have counted : u.env.retired = k := by
      rw [benchRun_retired (rand c.seed) undefinedShift reached]
      exact Nat.zero_add k
    rw [← counted, ← same] at reached
    obtain rfl : u = t := Option.some.inj (reached.symm.trans here)
    refine reads shows (alike_of_agree vm agree finishes.tick rfl rfl rfl) ?_
    rw [reference, same]
    exact if_neg (not_not.mpr rfl)
  -- The counts differ, so the script runs the interpreter again for the JIT's count.
  · obtain ⟨t', rerun⟩ := finishes.rerun
    obtain ⟨elapsed'', rate'', again⟩ := interp _ _ _ _ .done rerun.accepted rerun.stops
    set q := interpReport { c with budget := d.machine.env.retired } t' .done elapsed''
      (some rate'') with isQ
    obtain ⟨ref, readRef, shown⟩ := readReport_text q
    have alike : Alike q r' := by
      have vm : q.vm = r'.vm := rerun.vm
      exact ⟨by rw [vm], by rw [vm], by rw [vm], by rw [vm], rerun.delay, rerun.sound, by rw [vm],
        rerun.retired⟩
    refine reads shown alike ?_
    have apart : decimal d.machine.env.retired ≠ decimal u.env.retired := fun texts =>
      same (Int.ofNat.inj (decimal_injective texts))
    rw [reference, if_pos apart, int_decimal, Option.bind_some, Diff.run, again, readRef]

theorem checkRom_silent {engines : List Jit.Backend} (any : engines ≠ [])
    (interp : ∀ count, InterpWrites rand undefinedShift s count (stderr s .interp count))
    (jit : ∀ backend ∈ engines, JitWrites rand undefinedShift backend s instructions
      (stderr s (engineOf backend) instructions))
    (finish : ∀ backend ∈ engines, ∃ c n d,
      Finishes rand undefinedShift backend s instructions c n d) :
    checkRom U stderr s instructions (engines.map engineOf) = some 0 := by
  obtain ⟨first, inside⟩ := List.exists_mem_of_ne_nil engines any
  obtain ⟨c, n, d, finishes⟩ := finish first inside
  obtain ⟨k, u, elapsed, rate, -, -, text⟩ := finishes.base (interp instructions)
  obtain ⟨base, readBase, shows⟩ := readReport_text (interpReport c u .done elapsed (some rate))
  obtain ⟨v, rated⟩ := Option.isSome_iff_exists.mp shows.rate
  have read : run stderr s .interp instructions = some base := by rw [run, text, readBase]
  have each (rest : List Jit.Backend) (sub : ∀ backend ∈ rest, backend ∈ engines) :
      (rest.map engineOf).mapM (checkEngine U stderr s instructions base) =
        some (rest.map fun _ => []) := by
    induction rest with
    | nil => rfl
    | cons backend rest ih =>
      obtain ⟨here, later⟩ := List.forall_mem_cons.mp sub
      obtain ⟨c', n', d', finishes'⟩ := finish backend here
      rw [List.map_cons, List.mapM_cons, finishes'.silent interp (jit backend here) read, ih later]
      rfl
  unfold checkRom
  simp only [read, rated, shows.retired, each engines fun _ here => here, Option.bind_eq_bind,
    Option.bind_some]
  congr 1
  rw [List.countP_eq_zero]
  intro diffs here
  obtain ⟨_, -, rfl⟩ := List.mem_map.mp here
  exact Bool.false_ne_true

end

/-- Where every JIT spends its budget before the clock cap, on every ROM, the script's rerun of
the interpreter stops by itself in the same machine, the script finds no divergence and exits with
status 0. -/
theorem main_agrees (U : Opt.Unicode) (stderr : Session → Engine → Int → Text)
    (rand : BitVec 32 → Nat → BitVec 32) (undefinedShift : Byte → BitVec 32)
    (sessions : List Session) (instructions : Int) (engines : List Jit.Backend) (any : engines ≠ [])
    (interp : ∀ s ∈ sessions, ∀ count,
      InterpWrites rand undefinedShift s count (stderr s .interp count))
    (jit : ∀ s ∈ sessions, ∀ backend ∈ engines,
      JitWrites rand undefinedShift backend s instructions
        (stderr s (engineOf backend) instructions))
    (finish : ∀ s ∈ sessions, ∀ backend ∈ engines, ∃ c n d,
      Finishes rand undefinedShift backend s instructions c n d) :
    main U stderr sessions instructions (engines.map engineOf) = some 0 ∧
      ∀ s ∈ sessions, ∀ backend ∈ engines, ∀ c n d,
        Finishes rand undefinedShift backend s instructions c n d →
          ∃ t, Rerun rand undefinedShift s c d t := by
  refine ⟨?_, fun s _ backend _ c n d finishes => finishes.rerun⟩
  have each : ∀ rest : List Session, (∀ s ∈ rest, s ∈ sessions) →
      rest.mapM (fun s => checkRom U stderr s instructions (engines.map engineOf)) =
        some (rest.map fun _ => 0) := by
    intro rest sub
    induction rest with
    | nil => rfl
    | cons s rest ih =>
      obtain ⟨here, later⟩ := List.forall_mem_cons.mp sub
      rw [List.mapM_cons, checkRom_silent any (interp s here) (jit s here) (finish s here), ih later]
      rfl
  unfold main
  rw [each sessions fun _ here => here]
  show some (if (sessions.map fun _ => 0).sum ≠ 0 then 1 else 0) = some 0
  rw [List.sum_eq_zero]
  · rfl
  · intro n here
    obtain ⟨_, -, rfl⟩ := List.mem_map.mp here
    rfl

/-! ## Processes exist -/

section
variable (rand : BitVec 32 → Nat → BitVec 32) (undefinedShift : Byte → BitVec 32)

def oneSecond : Printed := ⟨"1.000".toList, by decide⟩

/-- A process writes one text: its main loop ends in one state. -/
theorem interpWrites_exists (s : Session) (instructions : Int) :
    ∃ text, InterpWrites rand undefinedShift s instructions text := by
  by_cases ends : ∃ c n t why, parseArgs (s.argv instructions) = some c ∧
      Run.after (benchLoop (rand c.seed) undefinedShift) n (benchStart s.rom c) =
        some ⟨t, some why⟩
  · obtain ⟨c, n, t, why, accepted, run⟩ := ends
    refine ⟨(interpReport c t why oneSecond (some oneSecond)).text, fun c' n' t' why' accepted' run' =>
      ⟨oneSecond, oneSecond, ?_⟩⟩
    cases accepted.symm.trans accepted'
    cases Run.stops_unique run rfl run' rfl
    rfl
  · exact ⟨[], fun c n t why accepted run => absurd ⟨c, n, t, why, accepted, run⟩ ends⟩

theorem jitWrites_exists (backend : Jit.Backend) (s : Session) (instructions : Int) :
    ∃ text, JitWrites rand undefinedShift backend s instructions text := by
  have stopped {c : Command} {d : Jit.Dispatcher Bench}
      (stops : d.position = .stopped .quit ∨ d.position = .stopped .codegenFailed) :
      d.step (Jit.benchHost (rand c.seed) undefinedShift) (benchBuild backend) = none := by
    unfold Jit.Dispatcher.step
    obtain at_ | at_ := stops <;> rw [at_]
  by_cases ends : ∃ c n d, parseArgs (s.argv instructions) = some c ∧
      JitRuns rand undefinedShift backend s c n d ∧
      (d.position = .stopped .quit ∨ d.position = .stopped .codegenFailed)
  · obtain ⟨c, n, d, accepted, run, stops⟩ := ends
    refine ⟨(jitReport backend c d oneSecond (some oneSecond)).text, fun c' n' d' accepted' run' stops' =>
      ⟨oneSecond, oneSecond, ?_⟩⟩
    cases accepted.symm.trans accepted'
    cases Run.stops_unique run (stopped stops) run' (stopped stops')
    rfl
  · exact ⟨[], fun c n d accepted run stops => absurd ⟨c, n, d, accepted, run, stops⟩ ends⟩

end

/-- `JP 0x202; JP V0, 0x200`. -/
def jumpsBack : List Byte := [0x12, 0x02, 0xb2, 0x00]

def jumpsBackSession : Session := ⟨jumpsBack, "JUMPS".toList, by decide, 7, .none⟩

theorem jumpsBack_finishes (backend : Jit.Backend) : ∃ c n d,
    Finishes (fun _ _ => 0#32) (fun _ => 0#32) backend jumpsBackSession 1 c n d := by
  cases backend with
  | libgccjit =>
    have run : JitRuns (fun _ _ => 0#32) (fun _ => 0#32) .libgccjit jumpsBackSession
      (jumpsBackSession.command 1) 5 _ := rfl
    exact ⟨_, _, _, parse_count _ (by decide) (by decide), run, rfl, by decide, by decide, by decide⟩
  | llvm =>
    have run : JitRuns (fun _ _ => 0#32) (fun _ => 0#32) .llvm jumpsBackSession
      (jumpsBackSession.command 1) 5 _ := rfl
    exact ⟨_, _, _, parse_count _ (by decide) (by decide), run, rfl, by decide, by decide, by decide⟩

/-- The texts of three programs. -/
def texts (interp llvm libgccjit : Session → Int → Text) (s : Session) : Engine → Int → Text
  | .interp => interp s
  | .llvm => llvm s
  | .libgccjit => libgccjit s

theorem main_agrees_jumpsBack : ∃ stderr : Session → Engine → Int → Text,
    (∀ count, InterpWrites (fun _ _ => 0#32) (fun _ => 0#32) jumpsBackSession count
      (stderr jumpsBackSession .interp count)) ∧
    (∀ backend ∈ [Jit.Backend.llvm, .libgccjit], JitWrites (fun _ _ => 0#32) (fun _ => 0#32) backend
      jumpsBackSession 1 (stderr jumpsBackSession (engineOf backend) 1)) ∧
    main Opt.ascii stderr [jumpsBackSession] 1 [.llvm, .libgccjit] = some 0 := by
  choose interp interpWrites using interpWrites_exists (fun _ _ => 0#32) fun _ => 0#32
  choose jit jitWrites using jitWrites_exists (fun _ _ => 0#32) fun _ => 0#32
  let stderr := texts interp (jit .llvm) (jit .libgccjit)
  have jits (s : Session) (backend : Jit.Backend) :
      JitWrites (fun _ _ => 0#32) (fun _ => 0#32) backend s 1 (stderr s (engineOf backend) 1) := by
    cases backend <;> exact jitWrites _ s 1
  refine ⟨stderr, interpWrites jumpsBackSession, fun backend _ => jits _ backend, ?_⟩
  exact (main_agrees Opt.ascii stderr (fun _ _ => 0#32) (fun _ => 0#32) [jumpsBackSession] 1
    [.llvm, .libgccjit] (by decide) (fun s _ => interpWrites s) (fun s _ backend _ => jits s backend)
    fun s here backend _ => by
      rw [List.mem_singleton.mp here]
      exact jumpsBack_finishes backend).1

end ChipEight.Diff
