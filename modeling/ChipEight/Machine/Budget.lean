import ChipEight.Asm.Text
import ChipEight.Library.Numeral
import ChipEight.Machine.Bench
import ChipEight.Machine.Errors
import ChipEight.Machine.Screen
import Mathlib.Data.List.TakeWhile

/-! The budget of a `BENCH` interpreter: the command line of `bench_parse_args` and the main
loop of interp.c, which asks `bench_done` after every instruction.
-/

set_option autoImplicit false

namespace ChipEight

open Asm (Text isspace isdigit isxdigit digitValue)

/-! ## The command line -/

def longLongMax : Int := 2 ^ 63 - 1
def longLongMin : Int := -2 ^ 63

/-- The digits in front of a text, and what they are worth. -/
def leading (base : Nat) (s : Text) : Nat :=
  Numeral.value base 0 (((s.map digitValue).takeWhile fun d => d.any (· < base)).map (·.getD 0))

/-- A sign, and what stands behind it. -/
def signed : Text → Bool × Text
  | '-' :: s => (true, s)
  | '+' :: s => (false, s)
  | s => (false, s)

/-- `atoll`, which stops at the ends of the range. -/
def atoll (s : Text) : Int :=
  let r := signed (s.dropWhile isspace)
  let n : Int := leading 10 r.2
  max longLongMin (min longLongMax (if r.1 then -n else n))

/-- `strtoul (s, NULL, 0)`. -/
def strtoulLeading (s : Text) : Nat :=
  let r := signed (s.dropWhile isspace)
  let n := match r.2 with
    | '0' :: x :: d :: s =>
      if (x == 'x' || x == 'X') && isxdigit d then leading 16 (d :: s) else leading 8 (x :: d :: s)
    | '0' :: s => leading 8 s
    | s => leading 10 s
  if n > Asm.ulongMax then Asm.ulongMax
  else if r.1 then (Asm.ulongMax + 1 - n) % (Asm.ulongMax + 1) else n

/-- What `bench_parse_args` stores. -/
structure Command where
  rom : Option Text
  budget : Int
  seed : BitVec 32
  keyMode : KeyMode
  deriving DecidableEq

def Command.initial : Command := ⟨none, 50000000, 20240101#32, .rotate⟩

def KeyMode.ofText (s : Text) : Option KeyMode :=
  if s == "none".toList then some .none
  else if s == "rotate".toList then some .rotate
  else Option.none

/-- An argument that is no option with its value. -/
def Command.positional (c : Command) (arg : Text) : Option Command :=
  if arg.head? == some '-' then none
  else if c.rom.isNone then some { c with rom := some arg }
  else none

/-- The loop over `argv`; `none` is `usage`. -/
def Command.parse (c : Command) : List Text → Option Command
  | [] => some c
  | [arg] => c.positional arg
  | arg :: value :: rest =>
    if arg == "--instructions".toList then { c with budget := atoll value }.parse rest
    else if arg == "--seed".toList then
      { c with seed := BitVec.ofNat 32 (strtoulLeading value) }.parse rest
    else if arg == "--keys".toList then
      (KeyMode.ofText value).bind fun mode => { c with keyMode := mode }.parse rest
    else (c.positional arg).bind fun c => c.parse (value :: rest)

/-- `bench_parse_args`; `none` is a non-zero return. -/
def parseArgs (args : List Text) : Option Command :=
  (Command.initial.parse args).bind fun c =>
    if c.rom.isNone || c.budget ≤ 0 then none else some c

def clockCapFactor : Int := 64

/-- `bench_budget * BENCH_CLOCK_CAP_FACTOR`, which gcc computes modulo 2^64. -/
def clockCap (budget : Int) : Int := (BitVec.ofInt 64 (budget * clockCapFactor)).toInt

example : parseArgs ["PONG".toList, "--instructions".toList, " +12x".toList] =
    some ⟨some "PONG".toList, 12, 20240101#32, .rotate⟩ := by decide

example : parseArgs ["PONG".toList, "--keys".toList, "x".toList] = none := by decide

theorem digitValue_digitChar : ∀ d < 10, digitValue d.digitChar = some d := by
  decide

theorem digits_value (n : Nat) : ∃ ds : List Nat, (∀ d ∈ ds, d < 10) ∧
    (Nat.toDigits 10 n).map digitValue = ds.map some ∧ Numeral.value 10 0 ds = n := by
  induction n using Nat.strongRecOn with
  | _ n ih =>
    rcases Nat.lt_or_ge n 10 with single | more
    · refine ⟨[n], fun d here => ?_, ?_, by simp⟩
      · rwa [List.mem_singleton.mp here]
      · rw [Nat.toDigits_of_lt_base single, List.map_singleton, digitValue_digitChar n single]
        rfl
    · obtain ⟨ds, small, shape, worth⟩ := ih (n / 10) (by omega)
      have last : n % 10 < 10 := Nat.mod_lt n (by decide)
      refine ⟨ds ++ [n % 10], ?_, ?_, ?_⟩
      · exact List.forall_mem_append.mpr ⟨small, fun d here => by rwa [List.mem_singleton.mp here]⟩
      · rw [Nat.toDigits_of_base_le (by decide) more, List.map_append, shape, List.map_append,
          List.map_singleton, digitValue_digitChar _ last]
        rfl
      · unfold Numeral.value at worth ⊢
        rw [List.foldl_append, worth]
        exact Nat.div_add_mod' n 10

theorem leading_toDigits (n : Nat) : leading 10 (Nat.toDigits 10 n) = n := by
  obtain ⟨ds, small, shape, worth⟩ := digits_value n
  have whole : (ds.map some).takeWhile (fun d => d.any (· < 10)) = ds.map some := by
    rw [List.takeWhile_eq_self_iff]
    intro d here
    obtain ⟨e, inside, rfl⟩ := List.mem_map.mp here
    exact decide_eq_true (small e inside)
  unfold leading
  rw [shape, whole, List.map_map]
  exact (congrArg _ (List.map_id ds)).trans worth

theorem digit_plain {c : Char} (digit : c.isDigit = true) :
    isspace c = false ∧ c ≠ '-' ∧ c ≠ '+' := by
  have range : 48 ≤ c.toNat ∧ c.toNat ≤ 57 := by
    simpa [Char.isDigit, UInt32.le_iff_toNat_le] using digit
  have apart (d : Char) (other : d.toNat < 48) : c ≠ d := by
    rintro rfl
    omega
  refine ⟨?_, apart '-' (by decide), apart '+' (by decide)⟩
  unfold isspace Asm.between
  rw [beq_false_of_ne (apart ' ' (by decide)), Bool.false_or, Bool.and_eq_false_iff]
  right
  have tab : ('\r' : Char).toNat = 13 := rfl
  rw [tab]
  exact decide_eq_false (by omega)

theorem signed_plain {s : Text} (plain : ∀ c ∈ s, c ≠ '-' ∧ c ≠ '+') : signed s = (false, s) := by
  unfold signed
  split
  · exact absurd rfl (plain '-' List.mem_cons_self).1
  · exact absurd rfl (plain '+' List.mem_cons_self).2
  · rfl

theorem atoll_toDigits {n : Nat} (small : (n : Int) ≤ longLongMax) :
    atoll (Nat.toDigits 10 n) = n := by
  have plain : ∀ c ∈ Nat.toDigits 10 n, isspace c = false ∧ c ≠ '-' ∧ c ≠ '+' := fun c here =>
    digit_plain (Nat.isDigit_of_mem_toDigits (by decide) (by decide) here)
  have begun : (Nat.toDigits 10 n).dropWhile isspace = Nat.toDigits 10 n := by
    rw [List.dropWhile_eq_self_iff]
    intro _ blank
    rw [(plain _ (List.getElem_mem _)).1] at blank
    cases blank
  have low : longLongMin ≤ 0 := by decide
  unfold atoll
  simp only [begun, signed_plain fun c here => (plain c here).2, leading_toDigits,
    Bool.false_eq_true, if_false]
  omega

theorem parseArgs_budget {n : Nat} (positive : 0 < n) (small : (n : Int) ≤ longLongMax) :
    parseArgs ["rom".toList, "--instructions".toList, Nat.toDigits 10 n] =
      some ⟨some "rom".toList, n, 20240101#32, .rotate⟩ := by
  have begun : ¬ (n : Int) ≤ 0 := by omega
  have parsed : Command.initial.parse ["rom".toList, "--instructions".toList, Nat.toDigits 10 n] =
      some ⟨some "rom".toList, atoll (Nat.toDigits 10 n), 20240101#32, .rotate⟩ := rfl
  unfold parseArgs
  rw [parsed, atoll_toDigits small]
  have known : (⟨some "rom".toList, n, 20240101#32, .rotate⟩ : Command).rom.isNone = false := rfl
  rw [Option.bind_some, known, Bool.false_or, decide_eq_false begun, if_neg Bool.false_ne_true]

theorem parseArgs_some {args : List Text} {c : Command} (accepted : parseArgs args = some c) :
    0 < c.budget := by
  obtain ⟨c', -, kept⟩ := Option.bind_eq_some_iff.mp accepted
  split at kept
  · cases kept
  · rename_i fine
    cases kept
    simp only [Bool.or_eq_true, decide_eq_true_eq, not_or] at fine
    omega

/-! ## The main loop -/

/-- What the main loop breaks at. -/
inductive Break where
  | quitKey
  | error (code : BitVec 32)
  | done

/-- The main loop between two passes. -/
structure BenchLoop where
  state : State Bench
  stopped : Option Break

section
variable (rng : Nat → BitVec 32) (undefinedShift : Byte → BitVec 32)

/-- A pass of the main loop. -/
def benchPass (s : State Bench) : BenchLoop :=
  let keys := s.env.keysNow
  if keys.1 &&& quitBit != 0#32 then ⟨{ s with env := keys.2 }, some .quitKey⟩
  else
    let r := Interpreter.basicBlock (benchPlatform rng undefinedShift)
      { s with env := keys.2.retire 1 }
    if r.1 = 0#32 then ⟨r.2, if r.2.env.done then some .done else none⟩
    else ⟨r.2, some (.error r.1)⟩

def benchLoop (m : BenchLoop) : Option BenchLoop :=
  match m.stopped with
  | none => some (benchPass rng undefinedShift m.state)
  | some _ => none

/-- The loop as it is entered, on a ROM and a command line. -/
def benchStart (rom : List Byte) (c : Command) : BenchLoop :=
  ⟨⟨VM.boot rom, .initial c.budget (clockCap c.budget) c.keyMode⟩, none⟩

/-- What is executed in a state is neither `Fx0A` nor an error. -/
def Plays (s : State Bench) : Prop :=
  ¬ Rejects (benchPlatform rng undefinedShift) (benchEnter s) ∧
    ∀ x, decode (opcodeAt s.vm.memory s.vm.programCounter) ≠ some (.ldKey x)

/-- As long as the loop goes on it plays. -/
def Clean (start : BenchLoop) : Prop :=
  ∀ n s, Run.after (benchLoop rng undefinedShift) n start = some ⟨s, none⟩ →
    Plays rng undefinedShift s

/-- The loop stops, and has retired as many instructions as it made passes. -/
def StopsAfter (start : BenchLoop) (n : Nat) : Prop :=
  ∃ s why, Run.after (benchLoop rng undefinedShift) n start = some ⟨s, some why⟩ ∧
    s.env.retired = n

variable {rng undefinedShift}

/-! ### A pass -/

theorem exec_deaf {E : Type} (P : Platform E) (op : Word) {i : Insn} (noWait : ∀ x, i ≠ .ldKey x)
    (s : State E) : i.exec P op s = i.exec { P with awaitKeys := fun e => (0#32, e) } op s := by
  cases i with
  | ldKey x => exact absurd rfl (noWait x)
  | _ => rfl

/-- What an instruction that waits for no key leaves alone. -/
structure Unpolled (b b' : Bench) : Prop where
  keeps : Bench.Keeps b b'
  pollClock : b'.pollClock = b.pollClock

theorem Unpolled.of_same {b b' : Bench} (retired : b'.retired = b.retired)
    (budget : b'.budget = b.budget) (cap : b'.clockCap = b.clockCap)
    (mode : b'.keyMode = b.keyMode) (polled : b'.pollClock = b.pollClock) : Unpolled b b' :=
  ⟨⟨retired, budget, cap, mode, Nat.le_of_eq polled.symm⟩, polled⟩

theorem Unpolled.refl (b : Bench) : Unpolled b b := .of_same rfl rfl rfl rfl rfl

theorem Unpolled.trans {b b' b'' : Bench} (first : Unpolled b b') (second : Unpolled b' b'') :
    Unpolled b b'' :=
  ⟨first.keeps.trans second.keeps, second.pollClock.trans first.pollClock⟩

theorem unpolled_syncTimers (b : Bench) : Unpolled b b.syncTimers := by
  simp only [Bench.syncTimers]
  split <;> exact .of_same rfl rfl rfl rfl rfl

theorem unpolled_rollTick (t : Int) (b : Bench) : Unpolled b (b.rollTick t) := by
  unfold Bench.rollTick
  split <;> exact .of_same rfl rfl rfl rfl rfl

theorem unpolled_keysNow (b : Bench) : Unpolled b b.keysNow.2 := by
  unfold Bench.keysNow
  dsimp only
  split_ifs <;> exact unpolled_rollTick _ b

theorem deaf_keeps (rng : Nat → BitVec 32) (undefinedShift : Byte → BitVec 32) :
    ({ benchPlatform rng undefinedShift with
      awaitKeys := fun e => (0#32, e) } : Platform Bench).Keeps Unpolled where
  refl := Unpolled.refl
  trans := Unpolled.trans
  interrupt := unpolled_syncTimers
  syncTimers := unpolled_syncTimers
  getDelayTimer := Unpolled.refl
  setDelayTimer _ _ := .of_same rfl rfl rfl rfl rfl
  setSoundTimer _ _ := .of_same rfl rfl rfl rfl rfl
  rand _ := .of_same rfl rfl rfl rfl rfl
  allKeysDown := unpolled_keysNow
  clearKey _ b := (unpolled_rollTick _ b).trans (.of_same rfl rfl rfl rfl rfl)
  awaitKeys := Unpolled.refl
  frameSync := Unpolled.refl

theorem Plays.block {s : State Bench} (plays : Plays rng undefinedShift s) :
    ∃ t, Interpreter.basicBlock (benchPlatform rng undefinedShift) (benchEnter s) = (0#32, t) ∧
      Unpolled (benchEnter s).env t.env := by
  obtain ⟨accepts, noWait⟩ := plays
  have word : opcodeAt (benchEnter s).vm.memory (benchEnter s).vm.programCounter =
      opcodeAt s.vm.memory s.vm.programCounter := rfl
  unfold Rejects at accepts
  rw [basicBlock_eq]
  rw [word] at accepts ⊢
  cases decoded : decode (opcodeAt s.vm.memory s.vm.programCounter) with
  | none =>
    rw [decoded] at accepts
    exact absurd trivial accepts
  | some i =>
    rw [decoded] at accepts noWait
    dsimp only
    have success : (i.exec (benchPlatform rng undefinedShift)
        (opcodeAt s.vm.memory s.vm.programCounter) (benchEnter s)).1 = 0#32 :=
      Decidable.not_not.mp fun failed => accepts ((exec_errors decoded _).mp failed)
    refine ⟨_, Prod.ext success rfl, ?_⟩
    rw [exec_deaf _ _ (fun x same => noWait x (congrArg some same))]
    exact exec_keeps (deaf_keeps rng undefinedShift) _ i _

/-! ### The run -/

/-- What a run that polls no key has counted after `n` passes. -/
structure Tallied (c : Command) (n : Nat) (b : Bench) : Prop where
  retired : b.retired = n
  pollClock : b.pollClock = 0
  budget : b.budget = c.budget
  cap : b.clockCap = clockCap c.budget

theorem Tallied.done_iff {c : Command} {n : Nat} {b : Bench} (counted : Tallied c n b) :
    b.done = true ↔ c.budget ≤ n ∨ clockCap c.budget ≤ n := by
  unfold Bench.done Bench.now
  simp [counted.retired, counted.pollClock, counted.budget, counted.cap]

theorem Tallied.pass {c : Command} {n : Nat} {s : State Bench} (counted : Tallied c n s.env)
    (plays : Plays rng undefinedShift s) :
    ∃ t, benchPass rng undefinedShift s = ⟨t, if t.env.done then some .done else none⟩ ∧
      Tallied c (n + 1) t.env := by
  obtain ⟨t, block, unpolled⟩ := plays.block
  have keys := unpolled_keysNow s.env
  have entered : Tallied c (n + 1) (benchEnter s).env := by
    refine ⟨?_, keys.pollClock.trans counted.pollClock, keys.keeps.budget.trans counted.budget,
      keys.keeps.clockCap.trans counted.cap⟩
    rw [benchEnter_retired, counted.retired]
  refine ⟨t, ?_, ?_⟩
  · unfold benchPass
    simp only [keysNow_quit, bne_self_eq_false, Bool.false_eq_true, if_false]
    rw [show ({ s with env := s.env.keysNow.2.retire 1 } : State Bench) = benchEnter s from rfl,
      block, if_pos rfl]
  · exact ⟨unpolled.keeps.retired.trans entered.retired,
      unpolled.pollClock.trans entered.pollClock, unpolled.keeps.budget.trans entered.budget,
      unpolled.keeps.clockCap.trans entered.cap⟩

section
variable {rom : List Byte} {c : Command}
  (clean : Clean rng undefinedShift (benchStart rom c))
include clean

theorem Clean.running {n : Nat} (below : ∀ k, 0 < k → k ≤ n → ¬ (c.budget ≤ k ∨ clockCap c.budget ≤ k)) :
    ∃ s, Run.after (benchLoop rng undefinedShift) n (benchStart rom c) = some ⟨s, none⟩ ∧
      Tallied c n s.env := by
  induction n with
  | zero => exact ⟨_, rfl, rfl, rfl, rfl, rfl⟩
  | succ n ih =>
    obtain ⟨s, run, counted⟩ := ih fun k positive small => below k positive (Nat.le_succ_of_le small)
    obtain ⟨t, passed, counted'⟩ := counted.pass (clean n s run)
    have going : t.env.done = false := by
      rw [Bool.eq_false_iff, Ne, counted'.done_iff]
      exact below (n + 1) (Nat.succ_pos n) (Nat.le_refl _)
    refine ⟨t, Run.after_succ.mpr ⟨_, run, ?_⟩, counted'⟩
    show some (benchPass rng undefinedShift s) = _
    rw [passed, going]
    rfl

theorem Clean.stops {n : Nat} (below : ∀ k, 0 < k → k ≤ n → ¬ (c.budget ≤ k ∨ clockCap c.budget ≤ k))
    (reached : c.budget ≤ (n + 1 : Nat) ∨ clockCap c.budget ≤ (n + 1 : Nat)) :
    StopsAfter rng undefinedShift (benchStart rom c) (n + 1) := by
  obtain ⟨s, run, counted⟩ := clean.running below
  obtain ⟨t, passed, counted'⟩ := counted.pass (clean n s run)
  refine ⟨t, .done, Run.after_succ.mpr ⟨_, run, ?_⟩, counted'.retired⟩
  show some (benchPass rng undefinedShift s) = _
  rw [passed, counted'.done_iff.mpr reached]
  rfl

end

theorem StopsAfter.unique {start : BenchLoop} {m n : Nat}
    (first : StopsAfter rng undefinedShift start m)
    (second : StopsAfter rng undefinedShift start n) : m = n := by
  have later {m n : Nat} (first : StopsAfter rng undefinedShift start m)
      (second : StopsAfter rng undefinedShift start n) : ¬ m < n := by
    intro order
    obtain ⟨s, why, run, -⟩ := first
    obtain ⟨t, why', run', -⟩ := second
    obtain ⟨u, next, -⟩ := Run.after_le (Nat.succ_le_of_lt order) run'
    obtain ⟨v, here, stepped⟩ := Run.after_succ.mp next
    cases run.symm.trans here
    cases stepped
  exact Nat.le_antisymm (Nat.le_of_not_lt (later second first))
    (Nat.le_of_not_lt (later first second))

end

/-- The loop stops on the budget exactly where the cap, the wrapped product, is not below it. -/
theorem stops_on_budget_iff (rng : Nat → BitVec 32) (undefinedShift : Byte → BitVec 32)
    (rom : List Byte) {args : List Text} {c : Command} (accepted : parseArgs args = some c)
    (clean : Clean rng undefinedShift (benchStart rom c)) :
    (∃ n : Nat, StopsAfter rng undefinedShift (benchStart rom c) n ∧ (n : Int) = c.budget) ↔
      c.budget ≤ clockCap c.budget := by
  have positive := parseArgs_some accepted
  obtain ⟨n, budget⟩ : ∃ n : Nat, c.budget = (n + 1 : Nat) := ⟨(c.budget - 1).toNat, by omega⟩
  constructor
  · rintro ⟨m, stops, isBudget⟩
    by_contra low
    -- The cap comes first, or the first instruction does.
    obtain ⟨k, isCap⟩ : ∃ k : Nat, max 1 (clockCap c.budget) = (k + 1 : Nat) :=
      ⟨(max 1 (clockCap c.budget) - 1).toNat, by omega⟩
    have early : StopsAfter rng undefinedShift (benchStart rom c) (k + 1) :=
      clean.stops (fun j positive small => by omega) (.inr (by omega))
    have same := stops.unique early
    have one : n = 0 → clockCap c.budget = 64 := by
      rintro rfl
      rw [budget]
      decide
    omega
  · intro high
    exact ⟨n + 1, clean.stops (fun k positive small => by omega) (.inl (by omega)), budget.symm⟩

/-- `L: JP L`. -/
def jumpsToItself : List Byte := [0x12, 0x00]

theorem jumpsToItself_clean (c : Command) :
    Clean (fun _ => 0#32) (fun _ => 0#32) (benchStart jumpsToItself c) := by
  have decoded : decode (opcodeAt (VM.boot jumpsToItself).memory
      (VM.boot jumpsToItself).programCounter) = some (.jp 0x200#12) := by decide
  have plays {s : State Bench} (here : s.vm = VM.boot jumpsToItself) :
      Plays (fun _ => 0#32) (fun _ => 0#32) s := by
    have word : decode (opcodeAt s.vm.memory s.vm.programCounter) = some (.jp 0x200#12) := by
      rw [here]
      exact decoded
    constructor
    · unfold Rejects
      rw [show (benchEnter s).vm = s.vm from rfl, word]
      exact id
    · intro x wait
      cases word.symm.trans wait
  have stays (m m' : BenchLoop) (here : m.state.vm = VM.boot jumpsToItself)
      (stepped : benchLoop (fun _ => 0#32) (fun _ => 0#32) m = some m') :
      m'.state.vm = VM.boot jumpsToItself := by
    obtain ⟨s, _ | why⟩ := m
    · have block := basicBlock_eq (benchPlatform (fun _ => 0#32) (fun _ => 0#32)) (benchEnter s)
      rw [show (benchEnter s).vm = VM.boot jumpsToItself from here, decoded] at block
      cases stepped
      show (benchPass (fun _ => 0#32) (fun _ => 0#32) s).state.vm = _
      unfold benchPass
      simp only [keysNow_quit, bne_self_eq_false, Bool.false_eq_true, if_false]
      rw [show ({ s with env := s.env.keysNow.2.retire 1 } : State Bench) = benchEnter s from rfl,
        block]
      exact congrArg (VM.setPc · 0x200#16) here
    · cases stepped
  intro n s run
  exact plays (@Run.invariant _ _ (fun m : BenchLoop => m.state.vm = VM.boot jumpsToItself) stays
    _ _ _ rfl run)

theorem stops_on_budget_iff_three :
    parseArgs ["rom".toList, "--instructions".toList, "3".toList] =
        some ⟨some "rom".toList, 3, 20240101#32, .rotate⟩ ∧
      ∃ n : Nat, StopsAfter (fun _ => 0#32) (fun _ => 0#32)
        (benchStart jumpsToItself ⟨some "rom".toList, 3, 20240101#32, .rotate⟩) n ∧ (n : Int) = 3 := by
  have accepted : parseArgs ["rom".toList, "--instructions".toList, "3".toList] =
      some ⟨some "rom".toList, 3, 20240101#32, .rotate⟩ := by decide
  exact ⟨accepted, (stops_on_budget_iff _ _ jumpsToItself accepted
    (jumpsToItself_clean _)).mpr (by decide)⟩

/-- The cap of a budget of `2 ^ 57` is negative, and the loop stops at once. -/
theorem stops_before_budget :
    ∃ c, parseArgs ["rom".toList, "--instructions".toList, "144115188075855872".toList] = some c ∧
      c.budget = 2 ^ 57 ∧ Clean (fun _ => 0#32) (fun _ => 0#32) (benchStart jumpsToItself c) ∧
      StopsAfter (fun _ => 0#32) (fun _ => 0#32) (benchStart jumpsToItself c) 1 ∧
      ¬ ∃ n : Nat, StopsAfter (fun _ => 0#32) (fun _ => 0#32) (benchStart jumpsToItself c) n ∧
        (n : Int) = c.budget := by
  have accepted : parseArgs ["rom".toList, "--instructions".toList, "144115188075855872".toList] =
      some ⟨some "rom".toList, 2 ^ 57, 20240101#32, .rotate⟩ := by decide
  have clean := jumpsToItself_clean ⟨some "rom".toList, 2 ^ 57, 20240101#32, .rotate⟩
  have negative : clockCap (2 ^ 57) ≤ (0 + 1 : Nat) := by decide
  have first := clean.stops (n := 0) (fun k positive small => absurd positive (Nat.not_lt.mpr small))
    (.inr negative)
  refine ⟨_, accepted, rfl, clean, first, ?_⟩
  rintro ⟨n, stops, same⟩
  obtain rfl := stops.unique first
  exact absurd same (by decide)

end ChipEight
