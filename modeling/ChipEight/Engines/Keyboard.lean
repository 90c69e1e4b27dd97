import ChipEight.Jit.Tracking
import ChipEight.Library.Polling
import ChipEight.Machine.Servicing

/-! The synthetic keyboard of the benchmark builds.

A poll charges one unit to the clock, and a key is down in two ticks of every four unless it
was cleared in that tick. A wait that begins in a tick whose key has been cleared may have to
go on through the two ticks without a key.
-/

set_option autoImplicit false

namespace ChipEight

namespace Bench

/-! ## States of the host -/

/-- The clock and the keyboard are the same. -/
structure SameKeyboard (b b' : Bench) : Prop where
  retired : b'.retired = b.retired
  pollClock : b'.pollClock = b.pollClock
  budget : b'.budget = b.budget
  clockCap : b'.clockCap = b.clockCap
  keyMode : b'.keyMode = b.keyMode
  cleared : b'.cleared = b.cleared
  clearedTick : b'.clearedTick = b.clearedTick

theorem SameKeyboard.trans {b b' b'' : Bench} (first : SameKeyboard b b')
    (second : SameKeyboard b' b'') : SameKeyboard b b'' where
  retired := second.retired.trans first.retired
  pollClock := second.pollClock.trans first.pollClock
  budget := second.budget.trans first.budget
  clockCap := second.clockCap.trans first.clockCap
  keyMode := second.keyMode.trans first.keyMode
  cleared := second.cleared.trans first.cleared
  clearedTick := second.clearedTick.trans first.clearedTick

/-- The states the engines can bring the host to. -/
inductive Reached (undefinedShift : Byte → BitVec 32) : Bench → Prop where
  | initial (budget clockCap : Int) (keyMode : KeyMode) :
      Reached undefinedShift (.initial budget clockCap keyMode)
  | retire {b : Bench} (n : Nat) (reached : Reached undefinedShift b) :
      Reached undefinedShift (b.retire n)
  | perform {b : Bench} (q : Request) (reached : Reached undefinedShift b) :
      Reached undefinedShift (perform undefinedShift b q).2
  /-- The timers, the safepoints and the random source do what they like. -/
  | apart {b b' : Bench} (same : SameKeyboard b b') (reached : Reached undefinedShift b) :
      Reached undefinedShift b'

theorem syncTimers_clock (b : Bench) : b.syncTimers.longTick = b.longTick ∧
    b.syncTimers.clearedTick = b.clearedTick := by
  unfold syncTimers
  dsimp only
  split <;> exact ⟨rfl, rfl⟩

theorem rollTick_longTick (b : Bench) :
    (b.rollTick b.longTick).clearedTick = (b.rollTick b.longTick).longTick := by
  rw [rollTick_eq]
  rfl

theorem keysNow_clearedTick (b : Bench) : b.keysNow.2.clearedTick = b.keysNow.2.longTick := by
  rw [keysNow_snd]
  exact rollTick_longTick b

section
variable {undefinedShift : Byte → BitVec 32}

theorem Reached.clearedTick_le {b : Bench} (reached : Reached undefinedShift b) :
    b.clearedTick ≤ b.longTick := by
  induction reached with
  | initial budget clockCap keyMode => exact (initial_serviced budget clockCap keyMode).keys
  | @retire b n _ ih =>
    -- Time only goes on.
    have later : b.longTick ≤ (b.retire n).longTick := by
      refine Nat.div_le_div_right ?_
      unfold now Bench.retire
      dsimp only
      omega
    show b.clearedTick ≤ ((b.retire n).longTick : Int)
    omega
  | @perform b q _ ih =>
    obtain ⟨sameTick, sameCleared⟩ := syncTimers_clock b
    have synced : b.syncTimers.clearedTick ≤ b.syncTimers.longTick := by
      rw [sameTick, sameCleared]
      exact ih
    -- Every use of the keyboard rolls its tick first.
    cases q with
    | readDelay => exact synced
    | writeDelay v => exact synced
    | writeSound v => exact synced
    | sync => exact synced
    | testKeys => exact le_of_eq (keysNow_clearedTick b)
    | look => exact le_of_eq (keysNow_clearedTick b)
    | poll => exact le_of_eq (keysNow_clearedTick _)
    | clearKey key => exact le_of_eq (rollTick_longTick b)
  | @apart b b' same _ ih =>
    have tick : b'.longTick = b.longTick := by
      unfold longTick now
      rw [same.retired, same.pollClock]
    rw [same.clearedTick, tick]
    exact ih

/-! ## Polls -/

/-- The mask and the host behind some polls. -/
def polls (b : Bench) : Nat → BitVec 32 × Bench :=
  Polling.after (fun _ r => r.2.pollKeys) (0#32, b)

theorem polls_head (b : Bench) (n : Nat) : b.polls (n + 2) = b.pollKeys.2.polls (n + 1) := by
  induction n with
  | zero => rfl
  | succ n ih => exact congrArg (fun r : BitVec 32 × Bench => r.2.pollKeys) ih

theorem polls_keeps (b : Bench) (n : Nat) : Keeps b (b.polls n).2 := by
  induction n with
  | zero => exact Keeps.refl b
  | succ n ih => exact ih.trans (keeps_pollKeys _)

theorem polls_now (b : Bench) (n : Nat) : (b.polls n).2.now = b.now + n := by
  induction n with
  | zero => rfl
  | succ n ih =>
    show (b.polls n).2.pollKeys.2.now = _
    rw [pollKeys_now, ih]
    omega

/-- The loop of `load_on_key` ends with this poll. -/
structure EndsAfter (b : Bench) (n : Nat) : Prop where
  once : 0 < n
  ends : (b.polls n).2.done = true ∨ (b.polls n).1 ≠ 0#32
  waits : ∀ k, 0 < k → k < n → (b.polls k).2.done = false ∧ (b.polls k).1 = 0#32

/-- What the loop ends with. -/
def awaited (onDone : Bench → Bench) (b : Bench) (n : Nat) : BitVec 32 × Bench :=
  if (b.polls n).2.done then ((b.polls n).1, onDone (b.polls n).2) else b.polls n

theorem awaitKeys_polls (onDone : Bench → Bench) {b : Bench} {n : Nat} (ends : b.EndsAfter n) :
    b.awaitKeys onDone = b.awaited onDone n := by
  induction n generalizing b with
  | zero => exact absurd ends.once (Nat.lt_irrefl 0)
  | succ n ih =>
    rw [awaitKeys_eq]
    cases n with
    | zero =>
      unfold awaited
      show (if b.pollKeys.2.done then _ else _) = if b.pollKeys.2.done then _ else b.pollKeys
      split
      · rfl
      · rename_i running
        exact if_neg (ends.ends.resolve_left running)
    | succ n =>
      -- The first poll goes on, and the rest is the loop from behind it.
      obtain ⟨running, empty⟩ := ends.waits 1 Nat.one_pos (Nat.succ_lt_succ (Nat.succ_pos n))
      have rest : b.pollKeys.2.EndsAfter (n + 1) := by
        refine ⟨Nat.succ_pos n, polls_head b n ▸ ends.ends, fun k positive less => ?_⟩
        cases k with
        | zero => exact absurd positive (Nat.lt_irrefl 0)
        | succ k => exact polls_head b k ▸ ends.waits (k + 2) (Nat.succ_pos _) (Nat.succ_lt_succ less)
      have running : ¬ b.pollKeys.2.done = true := Bool.eq_false_iff.mp running
      have empty : b.pollKeys.1 = 0#32 := empty
      rw [if_neg running, if_pos empty, ih rest]
      unfold awaited
      rw [polls_head]

theorem endsAfter_within {b : Bench} {n : Nat} (once : 0 < n)
    (ends : (b.polls n).2.done = true ∨ (b.polls n).1 ≠ 0#32) : ∃ k ≤ n, b.EndsAfter k := by
  have found : ∃ k, 0 < k ∧ ((b.polls k).2.done = true ∨ (b.polls k).1 ≠ 0#32) := ⟨n, once, ends⟩
  refine ⟨Nat.find found, Nat.find_min' found ⟨once, ends⟩, (Nat.find_spec found).1,
    (Nat.find_spec found).2, fun k positive less => ?_⟩
  have goesOn := Nat.find_min found less
  rw [not_and_or, not_or, not_not] at goesOn
  obtain ⟨running, empty⟩ := goesOn.resolve_left (not_not.mpr positive)
  exact ⟨Bool.eq_false_iff.mpr running, empty⟩

/-! ## The keyboard -/

theorem keysNow_single (b : Bench) (some : b.keysNow.1 ≠ 0#32) : ∃ k < 16, b.keysNow.1 = 1#32 <<< k := by
  rw [keysNow_fst] at some ⊢
  split at some
  · exact absurd rfl some
  split at some
  · exact absurd rfl some
  · refine ⟨b.longTick / 4 % 16, Nat.mod_lt _ (by decide), ?_⟩
    rename_i rotates down
    rw [if_neg rotates, if_neg down]
    rw [BitVec.and_comm, ← BitVec.twoPow_eq, BitVec.and_twoPow] at some ⊢
    split at some
    · rename_i bit
      rw [if_pos bit]
    · exact absurd rfl some

theorem keysNow_fresh {b : Bench} (rotates : b.keyMode = .rotate) (down : b.longTick % 4 < 2)
    (fresh : b.clearedTick < b.longTick) : b.keysNow.1 ≠ 0#32 := by
  have empty : b.clock.cleared = 0#32 := by
    unfold clock
    exact if_neg (ne_of_lt fresh)
  rw [keysNow_fst, rotates, if_neg KeyMode.noConfusion, if_neg (Nat.not_le.mpr down), empty]
  have bits : ∀ k < 16, 1#32 <<< k &&& ~~~0#32 ≠ 0#32 := by decide
  exact bits _ (Nat.mod_lt _ (by decide))

theorem pollKeys_clearedTick (b : Bench) : b.pollKeys.2.clearedTick = b.pollKeys.2.longTick :=
  keysNow_clearedTick _

theorem polls_clearedTick {b : Bench} (known : b.clearedTick ≤ b.longTick) (n : Nat) :
    (b.polls n).2.clearedTick ≤ (b.polls n).2.longTick := by
  cases n with
  | zero => exact known
  | succ n => exact le_of_eq (pollKeys_clearedTick _)

theorem pollKeys_fresh {b : Bench} (known : b.clearedTick ≤ b.longTick)
    (rotates : b.keyMode = .rotate) {t : Nat} (reaches : b.now + 1 = instrPerTick * t)
    (down : t % 4 < 2) : b.pollKeys.1 ≠ 0#32 := by
  have clock : ({ b with pollClock := b.pollClock + pollCost } : Bench).now = instrPerTick * t := by
    rw [← reaches]
    exact (Nat.add_assoc _ _ _).symm
  have tick : ({ b with pollClock := b.pollClock + pollCost } : Bench).longTick = t := by
    rw [longTick, clock]
    exact Nat.mul_div_cancel_left t (by decide)
  have past : b.longTick < t := by
    apply Nat.div_lt_of_lt_mul
    rw [← reaches]
    exact Nat.lt_succ_self b.now
  apply keysNow_fresh
  · exact rotates
  · rw [tick]
    exact down
  · rw [tick]
    exact lt_of_le_of_lt known (Int.ofNat_lt.mpr past)

theorem polls_fresh {b : Bench} (known : b.clearedTick ≤ b.longTick) (rotates : b.keyMode = .rotate)
    {n t : Nat} (once : 0 < n) (reaches : b.now + n = instrPerTick * t) (down : t % 4 < 2) :
    (b.polls n).1 ≠ 0#32 := by
  cases n with
  | zero => exact absurd once (Nat.lt_irrefl 0)
  | succ n =>
    apply pollKeys_fresh (polls_clearedTick known n) ((polls_keeps b n).keyMode.trans rotates) _ down
    show (b.polls n).2.now + 1 = instrPerTick * t
    rw [polls_now, ← reaches, Nat.add_assoc]

/-- Of the three ticks after any tick, one is the start of a slot's pressed half or follows it. -/
theorem reaches_key (now : Nat) : ∃ n t, 0 < n ∧ n ≤ 6000 ∧ now + n = instrPerTick * t ∧ t % 4 < 2 := by
  have long : instrPerTick = 2000 := rfl
  rw [long]
  have split := Nat.div_add_mod now 2000
  have small := Nat.mod_lt now (show 0 < 2000 by decide)
  have phase := Nat.mod_lt (now / 2000) (show 0 < 4 by decide)
  rcases (by omega : now / 2000 % 4 = 0 ∨ now / 2000 % 4 = 3 ∨ now / 2000 % 4 = 2 ∨
    now / 2000 % 4 = 1) with first | last | third | second
  · exact ⟨2000 - now % 2000, now / 2000 + 1, by omega, by omega, by omega, by omega⟩
  · exact ⟨2000 - now % 2000, now / 2000 + 1, by omega, by omega, by omega, by omega⟩
  · exact ⟨4000 - now % 2000, now / 2000 + 2, by omega, by omega, by omega, by omega⟩
  · exact ⟨6000 - now % 2000, now / 2000 + 3, by omega, by omega, by omega, by omega⟩

theorem polls_single {b : Bench} {n : Nat} (some : (b.polls n).1 ≠ 0#32) :
    ∃ k < 16, (b.polls n).1 = 1#32 <<< k := by
  cases n with
  | zero => exact absurd rfl some
  | succ n => exact keysNow_single _ some

/-! ## Runs -/

theorem syncTimers_same (b : Bench) : SameKeyboard b b.syncTimers := by
  unfold syncTimers
  dsimp only
  split <;> exact ⟨rfl, rfl, rfl, rfl, rfl, rfl, rfl⟩

theorem setOver_same (b : Bench) : SameKeyboard b b.setOver := ⟨rfl, rfl, rfl, rfl, rfl, rfl, rfl⟩

theorem checkInterrupt_same (b : Bench) : SameKeyboard b b.checkInterrupt := by
  unfold Bench.checkInterrupt
  dsimp only
  split
  · exact (syncTimers_same b).trans (setOver_same _)
  · exact syncTimers_same b

theorem advanceSafepoint_same (b : Bench) : SameKeyboard b b.advanceSafepoint :=
  ⟨rfl, rfl, rfl, rfl, rfl, rfl, rfl⟩

theorem Reached.awaitKeys {onDone : Bench → Bench} (same : ∀ b, SameKeyboard b (onDone b))
    {b : Bench} (reached : Reached undefinedShift b) :
    Reached undefinedShift (b.awaitKeys onDone).2 := by
  unfold Bench.awaitKeys
  generalize b.awaitFuel = fuel
  induction fuel generalizing b with
  | zero => exact reached
  | succ fuel ih =>
    have polled : Reached undefinedShift b.pollKeys.2 := reached.perform .poll
    simp only [awaitLoop]
    split
    · exact .apart (same _) polled
    · split
      · exact ih polled
      · exact polled

theorem benchPlatform_reached (rng : Nat → BitVec 32) :
    (benchPlatform rng undefinedShift).Keeps fun b b' =>
      Reached undefinedShift b → Reached undefinedShift b' where
  refl _ := id
  trans first second reached := second (first reached)
  interrupt b := .apart (syncTimers_same b)
  syncTimers b := .apart (syncTimers_same b)
  getDelayTimer _ := id
  setDelayTimer _ _ := .apart ⟨rfl, rfl, rfl, rfl, rfl, rfl, rfl⟩
  setSoundTimer _ _ := .apart ⟨rfl, rfl, rfl, rfl, rfl, rfl, rfl⟩
  rand _ := .apart ⟨rfl, rfl, rfl, rfl, rfl, rfl, rfl⟩
  allKeysDown _ := .perform .testKeys
  clearKey key _ := .perform (.clearKey key)
  awaitKeys _ := Reached.awaitKeys fun _ => ⟨rfl, rfl, rfl, rfl, rfl, rfl, rfl⟩
  frameSync _ := id

theorem benchHost_reached (rng : Nat → BitVec 32) :
    (Jit.benchHost rng undefinedShift).Keeps fun b b' =>
      Reached undefinedShift b → Reached undefinedShift b' where
  platform :=
    { benchPlatform_reached rng with awaitKeys := fun _ => Reached.awaitKeys setOver_same }
  checkInterrupt b := .apart (checkInterrupt_same b)
  retire n _ := .retire n
  safepoint b reached := by
    show Reached undefinedShift b.safepoint
    unfold Bench.safepoint
    split
    · exact .apart ((checkInterrupt_same b).trans (advanceSafepoint_same _)) reached
    · exact reached
  idleWait _ := id

theorem benchRun_reached {rng : Nat → BitVec 32} {budget clockCap : Int} {keyMode : KeyMode}
    {vm : VM} {n : Nat} {s : State Bench}
    (run : benchRun rng undefinedShift n ⟨vm, .initial budget clockCap keyMode⟩ = some s) :
    Reached undefinedShift s.env := by
  apply @Run.invariant _ _ (fun s : State Bench => Reached undefinedShift s.env) _ _ _ _ _ run
  · intro s t reached stepped
    unfold benchStep at stepped
    dsimp only at stepped
    split at stepped
    · cases stepped
    · split at stepped
      · cases stepped
        rw [basicBlock_eq]
        have counted : Reached undefinedShift (s.env.keysNow.2.retire 1) :=
          .retire 1 (reached.perform .testKeys)
        split
        · exact exec_keeps (benchPlatform_reached rng) _ _ _ counted
        · exact counted
      · cases stepped
  · exact .initial budget clockCap keyMode

theorem dispatcher_reached {rng : Nat → BitVec 32} {build : Jit.Build} {budget clockCap : Int}
    {keyMode : KeyMode} {vm : VM} {n : Nat} {d : Jit.Dispatcher Bench}
    (run : Run.after (Jit.Dispatcher.step (Jit.benchHost rng undefinedShift) build) n
      (Jit.start vm (.initial budget clockCap keyMode)) = some d) :
    Reached undefinedShift d.machine.env := by
  apply @Run.invariant _ _ (fun d : Jit.Dispatcher Bench => Reached undefinedShift d.machine.env)
    _ _ _ _ _ run
  · exact fun d d' reached stepped => Jit.step_keeps (benchHost_reached rng) stepped reached
  · exact .initial budget clockCap keyMode

/-- The wait of `Fx0A` ends within three ticks by a key or the end of the run, and without keys
when the clock reaches its cap. -/
theorem keyboard_delivers {b : Bench} (reached : Reached undefinedShift b) :
    (b.keyMode = .rotate → ∃ n ≤ 6000, b.EndsAfter n ∧
        (∀ onDone, b.awaitKeys onDone = b.awaited onDone n) ∧
        ((b.polls n).2.done = true ∨ ∃ k < 16, (b.polls n).1 = 1#32 <<< k)) ∧
      (b.keyMode = .none → ∃ n : Nat, (n : Int) ≤ max 1 (b.clockCap - b.now) ∧ b.EndsAfter n ∧
        ∀ onDone, b.awaitKeys onDone = b.awaited onDone n) := by
  constructor
  · intro rotates
    -- A tick in which the key is down begins within three ticks, with no key cleared for it.
    obtain ⟨n, t, once, within, reaches, down⟩ := reaches_key b.now
    have some := polls_fresh reached.clearedTick_le rotates once reaches down
    obtain ⟨k, before, ends⟩ := endsAfter_within once (.inr some)
    exact ⟨k, Nat.le_trans before within, ends, fun onDone => awaitKeys_polls onDone ends,
      ends.ends.imp_right polls_single⟩
  · intro _
    -- Each poll moves the clock by one, so the cap is reached.
    let n := max 1 (b.clockCap - b.now).toNat
    have capped : (b.polls n).2.done = true := by
      have cap := (polls_keeps b n).clockCap
      have clock := polls_now b n
      unfold done
      rw [Bool.or_eq_true, decide_eq_true_iff, decide_eq_true_iff, cap, clock]
      right
      omega
    obtain ⟨k, before, ends⟩ := endsAfter_within (Nat.lt_of_lt_of_le Nat.one_pos (Nat.le_max_left ..))
      (.inl capped)
    exact ⟨k, by omega, ends, fun onDone => awaitKeys_polls onDone ends⟩

end

/-- From the start of a run, where the first key is down. -/
theorem keyboard_delivers_start : ∃ n ≤ 6000, (initial 100 6400 .rotate).EndsAfter n ∧
    (∀ onDone, (initial 100 6400 .rotate).awaitKeys onDone =
      (initial 100 6400 .rotate).awaited onDone n) ∧
    (((initial 100 6400 .rotate).polls n).2.done = true ∨
      ∃ k < 16, ((initial 100 6400 .rotate).polls n).1 = 1#32 <<< k) :=
  (keyboard_delivers (@Reached.initial (fun _ => 0#32) 100 6400 .rotate)).1 rfl

end Bench

end ChipEight
