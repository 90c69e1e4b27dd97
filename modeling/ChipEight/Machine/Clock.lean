import ChipEight.Machine.Bench

/-! The benchmark host as a clock.

Every engine keeps its timers and its cleared keys as of some earlier tick and
brings them up to date when it happens to look. `clock` is the host as of now, in
which the timers count down by themselves. Two hosts agree when their clocks are
equal, however long ago each was serviced, and every service respects that.
-/

set_option autoImplicit false

namespace ChipEight

structure Clock where
  retired : Nat
  pollClock : Nat
  budget : Int
  clockCap : Int
  keyMode : KeyMode
  cleared : BitVec 32
  delay : Byte
  sound : Byte
  randPos : Nat

namespace Bench

def clock (b : Bench) : Clock where
  retired := b.retired
  pollClock := b.pollClock
  budget := b.budget
  clockCap := b.clockCap
  keyMode := b.keyMode
  cleared := if b.clearedTick = b.longTick then b.cleared else 0#32
  delay := catchUp b.delayTimer (b.longTick - b.lastTick)
  sound := catchUp b.soundTimer (b.longTick - b.lastTick)
  randPos := b.randPos

/-- Neither the timers nor the cleared keys are of a later tick. -/
structure Serviced (b : Bench) : Prop where
  timers : b.lastTick ≤ b.longTick
  keys : b.clearedTick ≤ b.longTick

/-- The tick still fits the `int` that `bench_tick` returns. -/
def InRange (b : Bench) : Prop := b.longTick < 2 ^ 31

structure Agree (b b' : Bench) : Prop where
  clock : b.clock = b'.clock
  left : b.Serviced
  right : b'.Serviced

theorem Agree.symm {b b' : Bench} (agree : Agree b b') : Agree b' b :=
  ⟨agree.clock.symm, agree.right, agree.left⟩

theorem Agree.refl {b : Bench} (serviced : b.Serviced) : Agree b b := ⟨rfl, serviced, serviced⟩

/-! ## Catching up -/

theorem catchUp_zero (timer : Byte) : catchUp timer 0 = timer := by
  unfold catchUp
  split
  · simp
  · rename_i stopped
    apply BitVec.eq_of_toNat_eq
    rw [BitVec.toNat_ofNat]
    omega

theorem catchUp_toNat (timer : Byte) (elapsed : Nat) :
    (catchUp timer elapsed).toNat = timer.toNat - elapsed := by
  have small := timer.isLt
  unfold catchUp
  split
  · rename_i running
    rw [BitVec.toNat_sub, BitVec.ofInt_natCast, BitVec.toNat_ofNat]
    omega
  · rename_i stopped
    rw [BitVec.toNat_ofNat]
    omega

theorem catchUp_add (timer : Byte) {first second : Int} (hf : 0 ≤ first) (hs : 0 ≤ second) :
    catchUp (catchUp timer first) second = catchUp timer (first + second) := by
  obtain ⟨m, rfl⟩ := Int.eq_ofNat_of_zero_le hf
  obtain ⟨n, rfl⟩ := Int.eq_ofNat_of_zero_le hs
  apply BitVec.eq_of_toNat_eq
  rw [← Int.natCast_add, catchUp_toNat, catchUp_toNat, catchUp_toNat, Nat.sub_sub]

/-! ## The passage of time -/

/-- Let `n` instructions and `p` polls pass. -/
def charge (n p : Nat) (b : Bench) : Bench :=
  { b with retired := b.retired + n, pollClock := b.pollClock + p }

theorem longTick_charge (n p : Nat) (b : Bench) : b.longTick ≤ (b.charge n p).longTick := by
  simp only [longTick, charge, now]
  exact Nat.div_le_div_right (by omega)

theorem Serviced.charge {b : Bench} (serviced : b.Serviced) (n p : Nat) :
    (b.charge n p).Serviced := by
  have later := longTick_charge n p b
  obtain ⟨timers, keys⟩ := serviced
  exact ⟨by show b.lastTick ≤ _; omega, by show b.clearedTick ≤ _; omega⟩

theorem clock_charge {b : Bench} (serviced : b.Serviced) (n p : Nat) :
    (b.charge n p).clock = { b.clock with
      retired := b.retired + n
      pollClock := b.pollClock + p
      cleared := if (b.charge n p).longTick = b.longTick then b.clock.cleared else 0#32
      delay := catchUp b.clock.delay ((b.charge n p).longTick - b.longTick)
      sound := catchUp b.clock.sound ((b.charge n p).longTick - b.longTick) } := by
  have later := longTick_charge n p b
  obtain ⟨timers, keys⟩ := serviced
  have elapsed : ∀ timer : Byte, catchUp timer ((b.charge n p).longTick - b.lastTick) =
      catchUp (catchUp timer (b.longTick - b.lastTick))
        ((b.charge n p).longTick - b.longTick) := by
    intro timer
    rw [catchUp_add timer (by omega) (by omega)]
    congr 1
    omega
  have roll : (if b.clearedTick = (b.charge n p).longTick then b.cleared else 0#32) =
      if (b.charge n p).longTick = b.longTick then
        (if b.clearedTick = b.longTick then b.cleared else 0#32) else 0#32 := by
    by_cases same : (b.charge n p).longTick = b.longTick
    · rw [same, if_pos rfl]
    · rw [if_neg same, if_neg (by omega)]
  simp only [clock, Clock.mk.injEq]
  exact ⟨rfl, rfl, rfl, rfl, rfl, roll, elapsed _, elapsed _, rfl⟩

theorem clock_longTick {b b' : Bench} (same : b.clock = b'.clock) : b.longTick = b'.longTick := by
  have retired : b.retired = b'.retired := congrArg Clock.retired same
  have polled : b.pollClock = b'.pollClock := congrArg Clock.pollClock same
  rw [longTick, longTick, now, now, retired, polled]

theorem Agree.charge {b b' : Bench} (agree : Agree b b') (n p : Nat) :
    Agree (b.charge n p) (b'.charge n p) := by
  refine ⟨?_, agree.left.charge n p, agree.right.charge n p⟩
  have retired : b.retired = b'.retired := congrArg Clock.retired agree.clock
  have polled : b.pollClock = b'.pollClock := congrArg Clock.pollClock agree.clock
  have tick := clock_longTick agree.clock
  have tick' : (b.charge n p).longTick = (b'.charge n p).longTick := by
    simp only [longTick, now, Bench.charge, retired, polled]
  rw [clock_charge agree.left, clock_charge agree.right, agree.clock, retired, polled, tick, tick']

/-! ## Timers -/

theorem tick_inRange {b : Bench} (range : b.InRange) : b.tick = b.longTick := by
  unfold InRange at range
  have small : (BitVec.ofNat 32 b.longTick).toNat = b.longTick := by
    rw [BitVec.toNat_ofNat]
    omega
  rw [tick, BitVec.toInt_eq_toNat_of_lt, small]
  omega

theorem syncTimers_eq {b : Bench} (range : b.InRange) (serviced : b.Serviced) :
    b.syncTimers = { b with
      delayTimer := b.clock.delay
      soundTimer := b.clock.sound
      lastTick := b.longTick } := by
  unfold syncTimers
  rw [tick_inRange range]
  dsimp only [clock]
  split
  · rfl
  · rename_i none
    have now : (b.longTick : Int) - b.lastTick = 0 := by
      have := serviced.timers
      omega
    have same : b.lastTick = b.longTick := by omega
    rw [now, catchUp_zero, catchUp_zero, ← same]

theorem clock_synced (b : Bench) (delay sound : Byte) :
    { b with delayTimer := delay, soundTimer := sound, lastTick := b.longTick }.clock =
      { b.clock with delay := delay, sound := sound } := by
  have now : ({ b with delayTimer := delay, soundTimer := sound, lastTick := b.longTick } :
      Bench).longTick = b.longTick := rfl
  simp only [clock, now, Int.sub_self, catchUp_zero]

theorem Serviced.synced {b : Bench} (serviced : b.Serviced) (delay sound : Byte) :
    { b with delayTimer := delay, soundTimer := sound, lastTick := b.longTick }.Serviced :=
  ⟨Int.le_refl _, serviced.keys⟩

theorem Agree.syncTimers {b b' : Bench} (agree : Agree b b') (range : b.InRange) :
    Agree b.syncTimers b' := by
  rw [syncTimers_eq range agree.left]
  exact ⟨(clock_synced b _ _).trans agree.clock, agree.left.synced _ _, agree.right⟩

theorem Agree.inRange {b b' : Bench} (agree : Agree b b') (range : b.InRange) : b'.InRange := by
  rw [InRange, ← clock_longTick agree.clock]
  exact range

theorem Agree.syncBoth {b b' : Bench} (agree : Agree b b') (range : b.InRange) :
    Agree b.syncTimers b'.syncTimers :=
  ((agree.syncTimers range).symm.syncTimers (agree.inRange range)).symm

theorem Agree.setDelay {b b' : Bench} (agree : Agree b b') (range : b.InRange) (v : Byte) :
    Agree { b.syncTimers with delayTimer := v } { b'.syncTimers with delayTimer := v } := by
  rw [syncTimers_eq range agree.left, syncTimers_eq (agree.inRange range) agree.right]
  refine ⟨?_, agree.left.synced _ _, agree.right.synced _ _⟩
  refine (clock_synced b _ _).trans (Eq.trans ?_ (clock_synced b' _ _).symm)
  rw [agree.clock]

theorem Agree.setSound {b b' : Bench} (agree : Agree b b') (range : b.InRange) (v : Byte) :
    Agree { b.syncTimers with soundTimer := v } { b'.syncTimers with soundTimer := v } := by
  rw [syncTimers_eq range agree.left, syncTimers_eq (agree.inRange range) agree.right]
  refine ⟨?_, agree.left.synced _ _, agree.right.synced _ _⟩
  refine (clock_synced b _ _).trans (Eq.trans ?_ (clock_synced b' _ _).symm)
  rw [agree.clock]

theorem syncTimers_timers {b : Bench} (range : b.InRange) (serviced : b.Serviced) :
    b.syncTimers.delayTimer = b.clock.delay ∧ b.syncTimers.soundTimer = b.clock.sound := by
  rw [syncTimers_eq range serviced]
  exact ⟨rfl, rfl⟩

theorem Agree.timers {b b' : Bench} (agree : Agree b b') (range : b.InRange) :
    b.syncTimers.delayTimer = b'.syncTimers.delayTimer ∧
      b.syncTimers.soundTimer = b'.syncTimers.soundTimer := by
  obtain ⟨delay, sound⟩ := syncTimers_timers range agree.left
  obtain ⟨delay', sound'⟩ := syncTimers_timers (agree.inRange range) agree.right
  rw [delay, sound, delay', sound', agree.clock]
  exact ⟨rfl, rfl⟩

/-! ## Keys -/

theorem rollTick_eq (b : Bench) :
    b.rollTick b.longTick = { b with clearedTick := b.longTick, cleared := b.clock.cleared } := by
  unfold rollTick
  dsimp only [clock]
  split
  · rename_i old
    rw [if_neg (Ne.symm old)]
  · rename_i current
    have current : b.clearedTick = b.longTick := by
      by_contra old
      exact current (Ne.symm old)
    rw [if_pos current, ← current]

theorem clock_rolled (b : Bench) (cleared : BitVec 32) :
    { b with clearedTick := b.longTick, cleared := cleared }.clock =
      { b.clock with cleared := cleared } := by
  have now : ({ b with clearedTick := b.longTick, cleared := cleared } : Bench).longTick =
      b.longTick := rfl
  simp only [clock, now, if_true]

theorem Serviced.rolled {b : Bench} (serviced : b.Serviced) (cleared : BitVec 32) :
    { b with clearedTick := b.longTick, cleared := cleared }.Serviced :=
  ⟨serviced.timers, Int.le_refl _⟩

theorem Agree.rollTick {b b' : Bench} (agree : Agree b b') : Agree (b.rollTick b.longTick) b' := by
  rw [rollTick_eq]
  exact ⟨(clock_rolled b _).trans agree.clock, agree.left.rolled _, agree.right⟩

theorem keysNow_snd (b : Bench) : b.keysNow.2 = b.rollTick b.longTick := by
  unfold keysNow
  dsimp only
  split_ifs <;> rfl

theorem keysNow_fst (b : Bench) :
    b.keysNow.1 = if b.keyMode = .none then 0#32
      else if b.longTick % 4 ≥ 2 then 0#32
      else 1#32 <<< (b.longTick / 4 % 16) &&& ~~~b.clock.cleared := by
  unfold keysNow
  dsimp only
  rw [rollTick_eq]
  split_ifs <;> rfl

theorem Agree.keysNow {b b' : Bench} (agree : Agree b b') :
    b.keysNow.1 = b'.keysNow.1 ∧ Agree b.keysNow.2 b' := by
  constructor
  · have mode : b.keyMode = b'.keyMode := congrArg Clock.keyMode agree.clock
    rw [keysNow_fst, keysNow_fst, mode, clock_longTick agree.clock, agree.clock]
  · rw [keysNow_snd]
    exact agree.rollTick

theorem Agree.pollKeys {b b' : Bench} (agree : Agree b b') :
    b.pollKeys.1 = b'.pollKeys.1 ∧ Agree b.pollKeys.2 b'.pollKeys.2 := by
  have looked := (agree.charge 0 pollCost).keysNow
  exact ⟨looked.1, (looked.2.symm.keysNow.2).symm⟩

theorem Agree.done {b b' : Bench} (agree : Agree b b') : b.done = b'.done := by
  have retired : b.retired = b'.retired := congrArg Clock.retired agree.clock
  have polled : b.pollClock = b'.pollClock := congrArg Clock.pollClock agree.clock
  have budget : b.budget = b'.budget := congrArg Clock.budget agree.clock
  have cap : b.clockCap = b'.clockCap := congrArg Clock.clockCap agree.clock
  rw [Bench.done, Bench.done, now, now, retired, polled, budget, cap]

theorem Agree.setOver {b b' : Bench} (agree : Agree b b') :
    Agree { b with programOver := true } b' := ⟨agree.clock, ⟨agree.left.1, agree.left.2⟩, agree.right⟩

theorem Agree.awaitKeys {b b' : Bench} {onDone onDone' : Bench → Bench} (agree : Agree b b')
    (invisible : ∀ b b', Agree b b' → Agree (onDone b) (onDone' b')) :
    (b.awaitKeys onDone).1 = (b'.awaitKeys onDone').1 ∧
      Agree (b.awaitKeys onDone).2 (b'.awaitKeys onDone').2 := by
  have retired : b.retired = b'.retired := congrArg Clock.retired agree.clock
  have polled : b.pollClock = b'.pollClock := congrArg Clock.pollClock agree.clock
  have cap : b.clockCap = b'.clockCap := congrArg Clock.clockCap agree.clock
  have sameFuel : b.awaitFuel = b'.awaitFuel := by
    simp only [awaitFuel, now, retired, polled, cap]
  unfold Bench.awaitKeys
  rw [sameFuel]
  generalize b'.awaitFuel = fuel
  clear retired polled cap sameFuel
  induction fuel generalizing b b' with
  | zero => exact ⟨rfl, agree⟩
  | succ fuel ih =>
    obtain ⟨keys, polled⟩ := agree.pollKeys
    simp only [awaitLoop]
    rw [keys, polled.done]
    split_ifs
    · exact ⟨rfl, invisible _ _ polled⟩
    · exact ih polled
    · exact ⟨keys, polled⟩

theorem Agree.clearKey {b b' : Bench} (agree : Agree b b') (undefinedShift : Byte → BitVec 32)
    (key : Byte) : Agree (b.clearKey undefinedShift key) (b'.clearKey undefinedShift key) := by
  unfold Bench.clearKey
  rw [rollTick_eq, rollTick_eq]
  refine ⟨?_, agree.left.rolled _, agree.right.rolled _⟩
  refine (clock_rolled b _).trans (Eq.trans ?_ (clock_rolled b' _).symm)
  rw [agree.clock]

theorem Agree.rand {b b' : Bench} (agree : Agree b b') (rng : Nat → BitVec 32) :
    (b.rand rng).1 = (b'.rand rng).1 ∧ Agree (b.rand rng).2 (b'.rand rng).2 := by
  have position : b.randPos = b'.randPos := congrArg Clock.randPos agree.clock
  refine ⟨by simp only [Bench.rand, position], ?_, ⟨agree.left.1, agree.left.2⟩,
    ⟨agree.right.1, agree.right.2⟩⟩
  show ({ b.clock with randPos := b.randPos + 1 } : Clock) = { b'.clock with randPos := b'.randPos + 1 }
  rw [agree.clock, position]

end Bench

end ChipEight
