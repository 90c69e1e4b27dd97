import ChipEight.Library.Run
import ChipEight.Machine.Instruction

/-! The deterministic host of the `BENCH` builds (bench.h, bench_io.c) and the
timer catch-up every engine defines next to it.

The counters only grow and stay below the clock cap while the run goes on, so
they are natural numbers; budget and cap are read from the command line as
`long long`. The tick is the one narrowing conversion: `bench_tick` returns an
`int`, which gcc reduces modulo 2^32.
-/

set_option autoImplicit false

namespace ChipEight

inductive KeyMode where
  | none
  | rotate
  deriving DecidableEq, Repr

structure Bench where
  retired : Nat
  pollClock : Nat
  budget : Int
  clockCap : Int
  nextSafepoint : Nat
  keyMode : KeyMode
  cleared : BitVec 32
  clearedTick : Int
  lastTick : Int
  delayTimer : Byte
  soundTimer : Byte
  /-- How many values `rand ()` has returned. -/
  randPos : Nat
  /-- `program_over`, which only the JITs have. -/
  programOver : Bool

namespace Bench

def instrPerTick : Nat := 2000
def safepointInterval : Nat := 64
def pollCost : Nat := 1

/-- The counters as `main` starts, with the parsed command line. -/
def initial (budget clockCap : Int) (keyMode : KeyMode) : Bench where
  retired := 0
  pollClock := 0
  budget := budget
  clockCap := clockCap
  nextSafepoint := safepointInterval
  keyMode := keyMode
  cleared := 0#32
  clearedTick := -1
  lastTick := 0
  delayTimer := 0#8
  soundTimer := 0#8
  randPos := 0
  programOver := false

/-- `bench_now ()`, the virtual clock. -/
def now (b : Bench) : Nat := b.retired + b.pollClock

/-- The tick as `long long`, before `bench_tick` narrows it. -/
def longTick (b : Bench) : Nat := b.now / instrPerTick

def tick (b : Bench) : Int := (BitVec.ofNat 32 b.longTick).toInt

/-- `(timer > elapsed) ? (uint8_t) (timer - elapsed) : 0`. -/
def catchUp (timer : Byte) (elapsed : Int) : Byte :=
  if (timer.toNat : Int) > elapsed then timer - BitVec.ofInt 8 elapsed else 0#8

def syncTimers (b : Bench) : Bench :=
  let now := b.tick
  let elapsed := now - b.lastTick
  if elapsed > 0 then
    { b with
      delayTimer := catchUp b.delayTimer elapsed
      soundTimer := catchUp b.soundTimer elapsed
      lastTick := now }
  else b

def rollTick (t : Int) (b : Bench) : Bench :=
  if t ≠ b.clearedTick then { b with clearedTick := t, cleared := 0#32 } else b

/-- `bench_keys_now ()`: one key for half of each four-tick slot. -/
def keysNow (b : Bench) : BitVec 32 × Bench :=
  let t := b.longTick
  let b := b.rollTick t
  if b.keyMode = .none then (0#32, b)
  else if t % 4 ≥ 2 then (0#32, b)
  else (1#32 <<< (t / 4 % 16) &&& ~~~b.cleared, b)

def pollKeys (b : Bench) : BitVec 32 × Bench :=
  keysNow { b with pollClock := b.pollClock + pollCost }

/-- `bench_done ()`. -/
def done (b : Bench) : Bool := b.retired ≥ b.budget || (b.now : Int) ≥ b.clockCap

/-- `bench_retired += n`. -/
def retire (n : Nat) (b : Bench) : Bench := { b with retired := b.retired + n }

/-- The `do ... while` of `bench_advance_safepoint`. -/
def advanceLoop (retired : Nat) : Nat → Nat → Nat
  | 0, next => next
  | fuel + 1, next =>
    let next := next + safepointInterval
    if next ≤ retired then advanceLoop retired fuel next else next

def advanceSafepoint (b : Bench) : Bench :=
  { b with nextSafepoint := advanceLoop b.retired (b.retired + 1) b.nextSafepoint }

/-- The `do ... while` of `load_on_key`; the JITs set `program_over` before its `break`. -/
def awaitLoop (onDone : Bench → Bench) : Nat → Bench → BitVec 32 × Bench
  | 0, b => (0#32, b)
  | fuel + 1, b =>
    let r := b.pollKeys
    if r.2.done then (r.1, onDone r.2)
    else if r.1 = 0#32 then awaitLoop onDone fuel r.2
    else r

/-- Each poll moves the clock, so the cap bounds how often the loop runs. -/
def awaitFuel (b : Bench) : Nat := (b.clockCap - b.now).toNat + 1

def awaitKeys (onDone : Bench → Bench) (b : Bench) : BitVec 32 × Bench :=
  b.awaitLoop onDone b.awaitFuel

/-! ## The loops end by themselves -/

theorem advanceLoop_gt (retired fuel next : Nat) (enough : retired < next + fuel * safepointInterval) :
    retired < advanceLoop retired fuel next := by
  induction fuel generalizing next with
  | zero => simpa [advanceLoop] using enough
  | succ fuel ih =>
    simp only [advanceLoop]
    split
    · exact ih _ (by simp only [safepointInterval] at enough ⊢; omega)
    · omega

theorem advanceSafepoint_gt (b : Bench) : b.retired < b.advanceSafepoint.nextSafepoint :=
  advanceLoop_gt _ _ _ (by simp only [safepointInterval]; omega)

@[simp] theorem rollTick_now (t : Int) (b : Bench) : (b.rollTick t).now = b.now := by
  unfold rollTick; split <;> rfl

@[simp] theorem keysNow_now (b : Bench) : b.keysNow.2.now = b.now := by
  unfold keysNow; dsimp only; split_ifs <;> exact rollTick_now _ b

@[simp] theorem keysNow_clockCap (b : Bench) : b.keysNow.2.clockCap = b.clockCap := by
  unfold keysNow rollTick; dsimp only; split_ifs <;> rfl

@[simp] theorem pollKeys_now (b : Bench) : b.pollKeys.2.now = b.now + 1 := by
  rw [pollKeys, keysNow_now]; simp only [now, pollCost]; omega

@[simp] theorem pollKeys_clockCap (b : Bench) : b.pollKeys.2.clockCap = b.clockCap :=
  keysNow_clockCap _

/-- The loop of `load_on_key` as the source writes it: the fuel never runs out. -/
theorem awaitKeys_eq (onDone : Bench → Bench) (b : Bench) :
    b.awaitKeys onDone =
      if b.pollKeys.2.done then (b.pollKeys.1, onDone b.pollKeys.2)
      else if b.pollKeys.1 = 0#32 then b.pollKeys.2.awaitKeys onDone
      else b.pollKeys := by
  unfold awaitKeys
  conv_lhs => rw [awaitFuel, awaitLoop]
  split_ifs with ended empty
  · rfl
  · -- A poll that did not end the run used one unit of the clock the cap leaves.
    have running : (b.pollKeys.2.now : Int) < b.pollKeys.2.clockCap := by
      simp only [done, Bool.or_eq_true, decide_eq_true_eq, not_or] at ended
      omega
    have sameFuel : (b.clockCap - b.now).toNat = b.pollKeys.2.awaitFuel := by
      simp only [awaitFuel, pollKeys_now, pollKeys_clockCap] at running ⊢
      omega
    rw [sameFuel]
  · rfl

/-! ## What the services leave alone -/

structure Keeps (b b' : Bench) : Prop where
  retired : b'.retired = b.retired
  budget : b'.budget = b.budget
  clockCap : b'.clockCap = b.clockCap
  keyMode : b'.keyMode = b.keyMode
  pollClock : b.pollClock ≤ b'.pollClock

theorem Keeps.refl (b : Bench) : Keeps b b := ⟨rfl, rfl, rfl, rfl, Nat.le_refl _⟩

theorem Keeps.trans {b b' b'' : Bench} (first : Keeps b b') (second : Keeps b' b'') :
    Keeps b b'' where
  retired := second.retired.trans first.retired
  budget := second.budget.trans first.budget
  clockCap := second.clockCap.trans first.clockCap
  keyMode := second.keyMode.trans first.keyMode
  pollClock := Nat.le_trans first.pollClock second.pollClock

theorem Keeps.now_le {b b' : Bench} (keeps : Keeps b b') : b.now ≤ b'.now := by
  have := keeps.pollClock
  simp only [now, keeps.retired]
  omega

theorem keeps_syncTimers (b : Bench) : Keeps b b.syncTimers := by
  simp only [syncTimers]
  split <;> exact ⟨rfl, rfl, rfl, rfl, Nat.le_refl _⟩

theorem keeps_rollTick (t : Int) (b : Bench) : Keeps b (b.rollTick t) := by
  unfold rollTick
  split <;> exact ⟨rfl, rfl, rfl, rfl, Nat.le_refl _⟩

theorem keeps_keysNow (b : Bench) : Keeps b b.keysNow.2 := by
  unfold keysNow
  dsimp only
  split_ifs <;> exact keeps_rollTick _ b

theorem keeps_pollKeys (b : Bench) : Keeps b b.pollKeys.2 := by
  have charged : Keeps b { b with pollClock := b.pollClock + pollCost } :=
    ⟨rfl, rfl, rfl, rfl, Nat.le_add_right _ _⟩
  exact charged.trans (keeps_keysNow _)

theorem keeps_awaitKeys {onDone : Bench → Bench} (keeps : ∀ b, Keeps b (onDone b)) (b : Bench) :
    Keeps b (b.awaitKeys onDone).2 := by
  unfold awaitKeys
  generalize b.awaitFuel = fuel
  induction fuel generalizing b with
  | zero => exact Keeps.refl b
  | succ fuel ih =>
    have polled := keeps_pollKeys b
    simp only [awaitLoop]
    split
    · exact polled.trans (keeps _)
    · split
      · exact polled.trans (ih _)
      · exact polled

end Bench

/-! ## The interpreter of the benchmark build -/

section
variable (rng : Nat → BitVec 32) (undefinedShift : Byte → BitVec 32)

/-- `1 << key`, with the undefined shifts resolved by the parameter. -/
def shiftOne (key : Byte) : BitVec 32 :=
  if key < 32#8 then 1#32 <<< key.toNat else undefinedShift key

/-- `bench_clear_key`. -/
def Bench.clearKey (key : Byte) (b : Bench) : Bench :=
  let b := b.rollTick b.longTick
  { b with cleared := b.cleared ||| shiftOne undefinedShift key }

/-- The value of the next `rand ()`. -/
def Bench.rand (b : Bench) : BitVec 32 × Bench :=
  (rng b.randPos, { b with randPos := b.randPos + 1 })

def benchPlatform : Platform Bench where
  interrupt := Bench.syncTimers
  syncTimers := Bench.syncTimers
  getDelayTimer b := (b.delayTimer, b)
  setDelayTimer v b := { b with delayTimer := v }
  setSoundTimer v b := { b with soundTimer := v }
  rand := Bench.rand rng
  allKeysDown := Bench.keysNow
  clearKey := Bench.clearKey undefinedShift
  awaitKeys := Bench.awaitKeys id
  shiftOne := shiftOne undefinedShift
  frameSync := id

/-- One pass of the interpreter's main loop up to `bench_done`: test the quit key,
count the instruction, execute it. `none` is a `break`. -/
def benchStep (s : State Bench) : Option (State Bench) :=
  let keys := s.env.keysNow
  if keys.1 &&& quitBit != 0#32 then none
  else
    let r := Interpreter.basicBlock (benchPlatform rng undefinedShift)
      { s with env := keys.2.retire 1 }
    if r.1 = 0#32 then some r.2 else none

/-- The state after exactly `n` successful calls of `basic_block`. -/
def benchRun (n : Nat) (s : State Bench) : Option (State Bench) :=
  Run.after (benchStep rng undefinedShift) n s

theorem keeps_clearKey (key : Byte) (b : Bench) :
    Bench.Keeps b (b.clearKey undefinedShift key) :=
  (Bench.keeps_rollTick _ b).trans ⟨rfl, rfl, rfl, rfl, Nat.le_refl _⟩

theorem keeps_rand (b : Bench) : Bench.Keeps b (b.rand rng).2 :=
  ⟨rfl, rfl, rfl, rfl, Nat.le_refl _⟩

theorem benchPlatform_keeps : (benchPlatform rng undefinedShift).Keeps Bench.Keeps where
  refl := Bench.Keeps.refl
  trans := Bench.Keeps.trans
  interrupt := Bench.keeps_syncTimers
  syncTimers := Bench.keeps_syncTimers
  getDelayTimer := Bench.Keeps.refl
  setDelayTimer _ _ := ⟨rfl, rfl, rfl, rfl, Nat.le_refl _⟩
  setSoundTimer _ _ := ⟨rfl, rfl, rfl, rfl, Nat.le_refl _⟩
  rand := keeps_rand rng
  allKeysDown := Bench.keeps_keysNow
  clearKey := keeps_clearKey undefinedShift
  awaitKeys := Bench.keeps_awaitKeys fun b => Bench.Keeps.refl b
  frameSync := Bench.Keeps.refl

theorem basicBlock_keeps (s : State Bench) :
    Bench.Keeps s.env
      (Interpreter.basicBlock (benchPlatform rng undefinedShift) s).2.env := by
  rw [basicBlock_eq]
  cases decode (opcodeAt s.vm.memory s.vm.programCounter) with
  | none => exact Bench.Keeps.refl s.env
  | some i => exact exec_keeps (benchPlatform_keeps rng undefinedShift) _ i s

theorem keysNow_quit (b : Bench) : b.keysNow.1 &&& quitBit = 0#32 := by
  have bits : ∀ k < 16, 1#32 <<< k &&& quitBit = 0#32 := by decide
  unfold Bench.keysNow
  dsimp only
  split_ifs
  · exact BitVec.zero_and
  · exact BitVec.zero_and
  · rw [BitVec.and_assoc, BitVec.and_comm (~~~_), ← BitVec.and_assoc,
      bits _ (Nat.mod_lt _ (by decide)), BitVec.zero_and]

/-- The state `basic_block` is called in: the keys looked at, the instruction counted. -/
def benchEnter (s : State Bench) : State Bench :=
  { s with env := s.env.keysNow.2.retire 1 }

theorem benchStep_eq_some {s t : State Bench} :
    benchStep rng undefinedShift s = some t ↔
      Interpreter.basicBlock (benchPlatform rng undefinedShift) (benchEnter s) = (0#32, t) := by
  unfold benchStep
  simp only [keysNow_quit, bne_self_eq_false, Bool.false_eq_true, if_false]
  split
  · rename_i success
    rw [Option.some.injEq, Prod.ext_iff]
    exact ⟨fun same => ⟨success, same⟩, fun same => same.2⟩
  · rename_i failure
    constructor
    · intro none
      cases none
    · intro same
      exact absurd (congrArg Prod.fst same) failure

theorem benchEnter_retired (s : State Bench) :
    (benchEnter s).env.retired = s.env.retired + 1 := by
  rw [benchEnter, Bench.retire, (Bench.keeps_keysNow s.env).retired]

theorem benchStep_retired {s t : State Bench} (next : benchStep rng undefinedShift s = some t) :
    t.env.retired = s.env.retired + 1 := by
  have keeps := basicBlock_keeps rng undefinedShift (benchEnter s)
  rw [(benchStep_eq_some rng undefinedShift).mp next] at keeps
  rw [keeps.retired, benchEnter_retired]

theorem benchRun_retired {n : Nat} {s t : State Bench}
    (run : benchRun rng undefinedShift n s = some t) : t.env.retired = s.env.retired + n :=
  Run.measure_eq (fun _ _ => benchStep_retired rng undefinedShift) run

end

end ChipEight
