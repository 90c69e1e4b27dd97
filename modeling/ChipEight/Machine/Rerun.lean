import ChipEight.Machine.Budget
import ChipEight.Machine.Clock

/-! The interpreter of the benchmark build with another budget.

An instruction sees the budget and the cap only where `Fx0A` asks `bench_done` between
polls. As long as no wait is cut short a run is the same under every budget, and so is the
instruction at which two budgets are both spent.
-/

set_option autoImplicit false

namespace ChipEight

/-! ## Platforms that look alike through a map of the host -/

/-- The services commute with a change of the host, waiting for a key apart. -/
structure Platform.Maps {E : Type} (P : Platform E) (φ : E → E) : Prop where
  interrupt : ∀ e, P.interrupt (φ e) = φ (P.interrupt e)
  syncTimers : ∀ e, P.syncTimers (φ e) = φ (P.syncTimers e)
  getDelayTimer : ∀ e, P.getDelayTimer (φ e) = ((P.getDelayTimer e).1, φ (P.getDelayTimer e).2)
  setDelayTimer : ∀ v e, P.setDelayTimer v (φ e) = φ (P.setDelayTimer v e)
  setSoundTimer : ∀ v e, P.setSoundTimer v (φ e) = φ (P.setSoundTimer v e)
  rand : ∀ e, P.rand (φ e) = ((P.rand e).1, φ (P.rand e).2)
  allKeysDown : ∀ e, P.allKeysDown (φ e) = ((P.allKeysDown e).1, φ (P.allKeysDown e).2)
  clearKey : ∀ key e, P.clearKey key (φ e) = φ (P.clearKey key e)
  frameSync : ∀ e, P.frameSync (φ e) = φ (P.frameSync e)

def State.mapEnv {E : Type} (φ : E → E) (s : State E) : State E := ⟨s.vm, φ s.env⟩

section
variable {E : Type} {P : Platform E} {φ : E → E} (maps : P.Maps φ)
include maps

open Interpreter

theorem scanKeys_maps (x : Reg) (keys : BitVec 32) (s : State E) :
    scanKeys P x keys (s.mapEnv φ) = (scanKeys P x keys s).mapEnv φ := by
  unfold scanKeys
  generalize List.range 16 = is
  induction is generalizing s with
  | nil => rfl
  | cons i is ih =>
    have first : scanKey P x keys (s.mapEnv φ) i = (scanKey P x keys s i).mapEnv φ := by
      unfold scanKey State.mapEnv
      rw [maps.clearKey]
    rw [List.foldl_cons, List.foldl_cons, first, ih]

theorem exec_maps (op : Word) (i : Insn) (s : State E)
    (waits : ∀ x, i = .ldKey x →
      P.awaitKeys (φ s.env) = ((P.awaitKeys s.env).1, φ (P.awaitKeys s.env).2)) :
    i.exec P op (s.mapEnv φ) = ((i.exec P op s).1, (i.exec P op s).2.mapEnv φ) := by
  cases i with
  | ret =>
    simp only [Insn.exec, retern, State.mapEnv, maps.interrupt]
    split <;> rfl
  | call nnn =>
    simp only [Insn.exec, State.mapEnv, maps.interrupt]
    split <;> rfl
  | jp nnn => simp only [Insn.exec, State.mapEnv, maps.interrupt]
  | skip c =>
    have decided (holds : Bool) : skipIf holds (s.mapEnv φ) =
        ((skipIf holds s).1, (skipIf holds s).2.mapEnv φ) := by cases holds <;> rfl
    exact decided (c.holds s.vm)
  | rnd x kk => simp only [Insn.exec, State.mapEnv, maps.rand, step, advance]
  | drw x y n =>
    simp only [Insn.exec, State.mapEnv, maps.interrupt, maps.frameSync, step, advance]
  | skipKey x up =>
    simp only [Insn.exec, State.mapEnv, maps.allKeysDown, maps.clearKey]
    split <;> rfl
  | ldDelay x =>
    simp only [Insn.exec, State.mapEnv, maps.syncTimers, maps.getDelayTimer, step, advance]
  | ldKey x =>
    have scanned := scanKeys_maps maps x (P.awaitKeys s.env).1 { s with env := (P.awaitKeys s.env).2 }
    simp only [Insn.exec, State.mapEnv, waits x rfl] at scanned ⊢
    rw [scanned]
    split <;> rfl
  | setDelay x | setSound x =>
    simp only [Insn.exec, State.mapEnv, maps.syncTimers, maps.setDelayTimer, maps.setSoundTimer,
      step, advance]
  | _ => rfl

end

/-! ## Another budget -/

namespace Bench

def rebudget (budget clockCap : Int) (b : Bench) : Bench :=
  { b with budget := budget, clockCap := clockCap }

section
variable (budget clockCap : Int) (b : Bench)

theorem rebudget_done : (b.rebudget budget clockCap).done =
    (decide ((b.retired : Int) ≥ budget) || decide ((b.now : Int) ≥ clockCap)) := rfl

theorem syncTimers_now : b.syncTimers.now = b.now := by
  unfold syncTimers
  dsimp only
  split <;> rfl

theorem syncTimers_rebudget :
    (b.rebudget budget clockCap).syncTimers = b.syncTimers.rebudget budget clockCap := by
  unfold syncTimers rebudget
  dsimp only [tick, longTick, now]
  split <;> rfl

theorem rollTick_rebudget (t : Int) :
    (b.rebudget budget clockCap).rollTick t = (b.rollTick t).rebudget budget clockCap := by
  unfold rollTick rebudget
  split <;> rfl

theorem keysNow_rebudget : (b.rebudget budget clockCap).keysNow =
    (b.keysNow.1, b.keysNow.2.rebudget budget clockCap) := by
  have rolled := rollTick_rebudget budget clockCap b b.longTick
  have tick : (b.rebudget budget clockCap).longTick = b.longTick := rfl
  have mode : ((b.rollTick b.longTick).rebudget budget clockCap).keyMode =
      (b.rollTick b.longTick).keyMode := rfl
  unfold keysNow
  dsimp only
  rw [tick, rolled, mode]
  split_ifs <;> rfl

theorem pollKeys_rebudget : (b.rebudget budget clockCap).pollKeys =
    (b.pollKeys.1, b.pollKeys.2.rebudget budget clockCap) :=
  keysNow_rebudget budget clockCap { b with pollClock := b.pollClock + pollCost }

theorem going_earlier {b b' : Bench} (keeps : Keeps b b')
    (going : (b'.rebudget budget clockCap).done = false) :
    (b.rebudget budget clockCap).done = false := by
  have retired := keeps.retired
  have later := keeps.now_le
  rw [rebudget_done] at going ⊢
  simp only [Bool.or_eq_false_iff, decide_eq_false_iff_not] at going ⊢
  omega

theorem awaitKeys_rebudget {b : Bench} (found : (b.awaitKeys id).2.done = false)
    (going : ((b.awaitKeys id).2.rebudget budget clockCap).done = false) :
    (b.rebudget budget clockCap).awaitKeys id =
      ((b.awaitKeys id).1, (b.awaitKeys id).2.rebudget budget clockCap) := by
  obtain ⟨left, isLeft⟩ : ∃ n, (b.clockCap - b.now).toNat = n := ⟨_, rfl⟩
  induction left using Nat.strongRecOn generalizing b with
  | _ left ih =>
    rw [awaitKeys_eq] at found going
    rw [awaitKeys_eq, awaitKeys_eq id b, pollKeys_rebudget]
    by_cases isOver : b.pollKeys.2.done = true
    · rw [if_pos isOver] at found
      exact absurd (found.symm.trans isOver) Bool.false_ne_true
    rw [if_neg isOver] at found going
    rw [if_neg isOver]
    by_cases empty : b.pollKeys.1 = 0#32
    · rw [if_pos empty] at found going
      rw [if_pos empty]
      have later : (b.pollKeys.2.rebudget budget clockCap).done = false :=
        going_earlier budget clockCap (keeps_awaitKeys (fun b => .refl b) _) going
      have room : b.pollKeys.2.now < b.pollKeys.2.clockCap := by
        simp only [done, Bool.or_eq_true, decide_eq_true_eq, not_or] at isOver
        omega
      have sooner : (b.pollKeys.2.clockCap - b.pollKeys.2.now).toNat < left := by
        rw [pollKeys_now, pollKeys_clockCap] at room ⊢
        omega
      dsimp only
      rw [if_neg (Bool.eq_false_iff.mp later), if_pos empty]
      exact ih _ sooner found going rfl
    · rw [if_neg empty] at going
      rw [if_neg empty]
      dsimp only
      rw [if_neg (Bool.eq_false_iff.mp going), if_neg empty]

theorem awaitKeys_spent {b : Bench} (isOver : b.done = true)
    (isOver' : (b.rebudget budget clockCap).done = true) :
    (b.rebudget budget clockCap).awaitKeys id =
      ((b.awaitKeys id).1, (b.awaitKeys id).2.rebudget budget clockCap) := by
  have polled {b : Bench} (isOver : b.done = true) : b.pollKeys.2.done = true := by
    have keeps := keeps_pollKeys b
    have later := keeps.now_le
    simp only [done, Bool.or_eq_true, decide_eq_true_eq] at isOver ⊢
    rw [keeps.retired, keeps.budget, keeps.clockCap]
    omega
  rw [awaitKeys_eq, awaitKeys_eq id b, if_pos (polled isOver), if_pos (polled isOver'),
    pollKeys_rebudget]
  rfl

end

end Bench

/-! ## Runs under another budget -/

section
variable (rng : Nat → BitVec 32) (undefinedShift : Byte → BitVec 32) (budget clockCap : Int)

theorem benchPlatform_maps :
    (benchPlatform rng undefinedShift).Maps (Bench.rebudget budget clockCap) where
  interrupt := Bench.syncTimers_rebudget budget clockCap
  syncTimers := Bench.syncTimers_rebudget budget clockCap
  getDelayTimer _ := rfl
  setDelayTimer _ _ := rfl
  setSoundTimer _ _ := rfl
  rand _ := rfl
  allKeysDown := Bench.keysNow_rebudget budget clockCap
  clearKey key b := by
    have rolled := Bench.rollTick_rebudget budget clockCap b b.longTick
    show Bench.clearKey undefinedShift key _ = Bench.rebudget _ _ (Bench.clearKey undefinedShift key b)
    unfold Bench.clearKey
    dsimp only
    rw [show (b.rebudget budget clockCap).longTick = b.longTick from rfl, rolled]
    rfl
  frameSync _ := rfl

/-- The instruction of a state is `Fx0A`. -/
def Waits (s : State Bench) : Prop :=
  ∃ x, decode (opcodeAt s.vm.memory s.vm.programCounter) = some (.ldKey x)

theorem waits_done {s t : State Bench} {x : Reg}
    (decoded : decode (opcodeAt s.vm.memory s.vm.programCounter) = some (.ldKey x))
    (next : benchStep rng undefinedShift s = some t) :
    t.env.done = ((benchEnter s).env.awaitKeys id).2.done ∧
      (t.env.rebudget budget clockCap).done =
        (((benchEnter s).env.awaitKeys id).2.rebudget budget clockCap).done := by
  rw [benchStep_eq_some, basicBlock_eq,
    show (benchEnter s).vm = s.vm from rfl, decoded] at next
  -- Clearing the keys leaves the counters alone.
  have scanned : Bench.Keeps ((benchEnter s).env.awaitKeys id).2 t.env ∧
      t.env.now = ((benchEnter s).env.awaitKeys id).2.now := by
    have counted := scanKeys_keeps
      (R := fun b b' : Bench => Bench.Keeps b b' ∧ b'.now = b.now)
      (P := { benchPlatform rng undefinedShift with awaitKeys := fun e => (0#32, e) })
      { refl := fun b => ⟨.refl b, rfl⟩
        trans := fun first second => ⟨first.1.trans second.1, second.2.trans first.2⟩
        interrupt := fun b => ⟨Bench.keeps_syncTimers b, Bench.syncTimers_now b⟩
        syncTimers := fun b => ⟨Bench.keeps_syncTimers b, Bench.syncTimers_now b⟩
        getDelayTimer := fun b => ⟨.refl b, rfl⟩
        setDelayTimer := fun _ _ => ⟨⟨rfl, rfl, rfl, rfl, Nat.le_refl _⟩, rfl⟩
        setSoundTimer := fun _ _ => ⟨⟨rfl, rfl, rfl, rfl, Nat.le_refl _⟩, rfl⟩
        rand := fun b => ⟨keeps_rand rng b, rfl⟩
        allKeysDown := fun b => ⟨Bench.keeps_keysNow b, Bench.keysNow_now b⟩
        clearKey := fun key b => ⟨keeps_clearKey undefinedShift key b, Bench.rollTick_now _ b⟩
        awaitKeys := fun b => ⟨.refl b, rfl⟩
        frameSync := fun b => ⟨.refl b, rfl⟩ }
      x ((benchEnter s).env.awaitKeys id).1 ⟨s.vm, ((benchEnter s).env.awaitKeys id).2⟩
    have after := congrArg Prod.snd next
    dsimp only at after
    rw [← after]
    simp only [Insn.exec]
    split <;> exact counted
  obtain ⟨keeps, now⟩ := scanned
  constructor
  · simp only [Bench.done, keeps.retired, keeps.budget, keeps.clockCap, now]
  · rw [Bench.rebudget_done, Bench.rebudget_done, keeps.retired, now]

variable {rng undefinedShift}

theorem benchStep_rebudget {s t : State Bench} (next : benchStep rng undefinedShift s = some t)
    (waits : Waits s →
      t.env.done = false ∧ (t.env.rebudget budget clockCap).done = false ∨
      (benchEnter s).env.done = true ∧
        ((benchEnter s).env.rebudget budget clockCap).done = true) :
    benchStep rng undefinedShift (s.mapEnv (Bench.rebudget budget clockCap)) =
      some (t.mapEnv (Bench.rebudget budget clockCap)) := by
  have executed := (benchStep_eq_some rng undefinedShift).mp next
  obtain ⟨i, decoded, executed⟩ := basicBlock_decodes _ executed
  have entered : benchEnter (s.mapEnv (Bench.rebudget budget clockCap)) =
      (benchEnter s).mapEnv (Bench.rebudget budget clockCap) := by
    unfold benchEnter State.mapEnv
    dsimp only
    rw [Bench.keysNow_rebudget]
    rfl
  have waited : ∀ x, i = .ldKey x →
      ((benchEnter s).env.rebudget budget clockCap).awaitKeys id =
        (((benchEnter s).env.awaitKeys id).1,
          ((benchEnter s).env.awaitKeys id).2.rebudget budget clockCap) := by
    rintro x rfl
    obtain ⟨found, going⟩ | ⟨isOver, isOver'⟩ := waits ⟨x, decoded⟩
    · obtain ⟨left, right⟩ :=
        @waits_done rng undefinedShift budget clockCap s t x decoded next
      exact Bench.awaitKeys_rebudget budget clockCap (left ▸ found) (right ▸ going)
    · exact Bench.awaitKeys_spent budget clockCap isOver isOver'
  have same := exec_maps (benchPlatform_maps rng undefinedShift budget clockCap)
    (opcodeAt (benchEnter s).vm.memory (benchEnter s).vm.programCounter) i (benchEnter s) waited
  rw [executed] at same
  rw [benchStep_eq_some, entered, basicBlock_eq]
  have fetched : decode (opcodeAt ((benchEnter s).mapEnv (Bench.rebudget budget clockCap)).vm.memory
      ((benchEnter s).mapEnv (Bench.rebudget budget clockCap)).vm.programCounter) = some i := decoded
  rw [fetched]
  exact same

/-- The first `n` steps of a run; no wait among them is cut short. -/
def Patient (rng : Nat → BitVec 32) (undefinedShift : Byte → BitVec 32) (start : State Bench)
    (n : Nat) : Prop :=
  ∀ k u v, k < n → benchRun rng undefinedShift k start = some u →
    benchStep rng undefinedShift u = some v → Waits u → v.env.done = false

theorem Patient.succ {start s t : State Bench} {n : Nat}
    (patient : Patient rng undefinedShift start n)
    (run : benchRun rng undefinedShift n start = some s)
    (next : benchStep rng undefinedShift s = some t) (heard : Waits s → t.env.done = false) :
    Patient rng undefinedShift start (n + 1) := by
  intro k u v before reached stepped waits
  obtain earlier | rfl := Nat.lt_succ_iff_lt_or_eq.mp before
  · exact patient k u v earlier reached stepped waits
  · cases reached.symm.trans run
    cases stepped.symm.trans next
    exact heard waits

theorem benchStep_keeps {s t : State Bench} (next : benchStep rng undefinedShift s = some t) :
    s.env.now ≤ t.env.now := by
  have keeps := basicBlock_keeps rng undefinedShift (benchEnter s)
  rw [(benchStep_eq_some rng undefinedShift).mp next] at keeps
  refine Nat.le_trans ?_ keeps.now_le
  have looked := (Bench.keeps_keysNow s.env).now_le
  simp only [benchEnter, Bench.retire, Bench.now] at looked ⊢
  omega

variable {budget clockCap}

theorem benchRun_rebudget {start t : State Bench} {n : Nat}
    (run : benchRun rng undefinedShift n start = some t)
    (patient : Patient rng undefinedShift start (n - 1)) (spent : t.env.retired ≥ t.env.budget)
    (last : (t.env.retired : Int) = budget) (cap : (t.env.now : Int) < clockCap) {k : Nat}
    (within : k ≤ n) {u : State Bench} (reached : benchRun rng undefinedShift k start = some u) :
    benchRun rng undefinedShift k (start.mapEnv (Bench.rebudget budget clockCap)) =
      some (u.mapEnv (Bench.rebudget budget clockCap)) := by
  induction k generalizing u with
  | zero =>
    cases reached
    rfl
  | succ k ih =>
    obtain ⟨v, earlier, next⟩ := Run.after_succ.mp reached
    refine Run.after_succ.mpr ⟨_, ih (Nat.le_of_lt within) earlier, ?_⟩
    obtain ⟨u', reached', onwards⟩ := Run.after_le within run
    cases reached.symm.trans reached'
    have counted := benchRun_retired rng undefinedShift onwards
    have later : u.env.now ≤ t.env.now :=
      Run.measure_le (fun _ _ => benchStep_keeps) onwards
    apply benchStep_rebudget _ _ next
    intro waits
    -- Only a wait looks at the budget: before the last step no run is over, and then both are.
    obtain inside | final := Nat.lt_or_eq_of_le within
    · left
      refine ⟨patient k v u (by omega) earlier next waits, ?_⟩
      rw [Bench.rebudget_done]
      simp only [Bool.or_eq_false_iff, decide_eq_false_iff_not]
      omega
    · right
      obtain rfl : u = t := by
        rw [final] at reached
        exact Option.some.inj (reached.symm.trans run)
      have entered : (benchEnter v).env.retired = u.env.retired := by
        rw [benchEnter_retired, benchStep_retired rng undefinedShift next]
      have sameBudget : (benchEnter v).env.budget = u.env.budget := by
        have keeps := basicBlock_keeps rng undefinedShift (benchEnter v)
        rw [(benchStep_eq_some rng undefinedShift).mp next] at keeps
        exact keeps.budget.symm
      rw [Bench.rebudget_done, Bench.done, sameBudget]
      simp only [Bool.or_eq_true, decide_eq_true_eq]
      rw [entered]
      exact ⟨.inl spent, .inl (Int.le_of_eq last.symm)⟩

theorem benchPass_eq {s t : State Bench} (next : benchStep rng undefinedShift s = some t) :
    benchPass rng undefinedShift s = ⟨t, if t.env.done then some .done else none⟩ := by
  have executed := (benchStep_eq_some rng undefinedShift).mp next
  unfold benchPass
  simp only [keysNow_quit, bne_self_eq_false, Bool.false_eq_true, if_false]
  rw [show ({ s with env := s.env.keysNow.2.retire 1 } : State Bench) = benchEnter s from rfl,
    executed]
  exact if_pos rfl

theorem benchLoop_run {start t : State Bench} {n : Nat}
    (run : benchRun rng undefinedShift (n + 1) start = some t)
    (going : ∀ k u, k ≤ n → 0 < k → benchRun rng undefinedShift k start = some u →
      u.env.done = false)
    (isOver : t.env.done = true) :
    Run.after (benchLoop rng undefinedShift) (n + 1) ⟨start, none⟩ = some ⟨t, some .done⟩ := by
  have before : ∀ k u, k ≤ n → benchRun rng undefinedShift k start = some u →
      Run.after (benchLoop rng undefinedShift) k ⟨start, none⟩ = some ⟨u, none⟩ := by
    intro k
    induction k with
    | zero =>
      intro u _ reached
      cases reached
      rfl
    | succ k ih =>
      intro u within reached
      obtain ⟨v, earlier, next⟩ := Run.after_succ.mp reached
      refine Run.after_succ.mpr ⟨_, ih v (Nat.le_of_lt within) earlier, ?_⟩
      rw [benchLoop, benchPass_eq next, going (k + 1) u within (Nat.succ_pos k) reached]
      rfl
  obtain ⟨v, earlier, next⟩ := Run.after_succ.mp run
  refine Run.after_succ.mpr ⟨_, before n v (Nat.le_refl n) earlier, ?_⟩
  rw [benchLoop, benchPass_eq next, isOver]
  rfl

/-- The interpreter run again with the count of an earlier run as its budget: it stops by
itself, with that count, in the same machine. -/
theorem rerun_stops {rom : List Byte} {c : Command} {n : Nat} {t : State Bench}
    (run : benchRun rng undefinedShift n (benchStart rom c).state = some t) (positive : 0 < n)
    (patient : Patient rng undefinedShift (benchStart rom c).state (n - 1))
    (spent : c.budget ≤ n) (cap : (t.env.now : Int) < ChipEight.clockCap n) :
    Run.after (benchLoop rng undefinedShift) n (benchStart rom { c with budget := n }) =
      some ⟨t.mapEnv (Bench.rebudget n (ChipEight.clockCap n)), some .done⟩ := by
  have count : t.env.retired = n := by
    rw [benchRun_retired rng undefinedShift run]
    exact Nat.zero_add n
  have budget : t.env.budget = c.budget := by
    have keeps (u v : State Bench) (low : u.env.budget = c.budget)
        (next : benchStep rng undefinedShift u = some v) : v.env.budget = c.budget := by
      have executed := basicBlock_keeps rng undefinedShift (benchEnter u)
      rw [(benchStep_eq_some rng undefinedShift).mp next] at executed
      rw [executed.budget, ← low]
      exact (Bench.keeps_keysNow u.env).budget
    exact Run.invariant keeps rfl run
  obtain ⟨m, rfl⟩ : ∃ m, n = m + 1 := ⟨n - 1, by omega⟩
  have moved {k : Nat} (within : k ≤ m + 1) {u : State Bench}
      (reached : benchRun rng undefinedShift k (benchStart rom c).state = some u) :=
    benchRun_rebudget run patient (by rw [budget, count]; exact spent) (by rw [count]) cap within
      reached
  refine benchLoop_run (moved (Nat.le_refl _) run) ?_ ?_
  · intro k w within positive reached
    obtain ⟨u, reached', onwards⟩ := Run.after_le (Nat.le_succ_of_le within) run
    have other := moved (Nat.le_succ_of_le within) reached'
    cases reached.symm.trans other
    have counted := benchRun_retired rng undefinedShift onwards
    have later : u.env.now ≤ t.env.now := Run.measure_le (fun _ _ => benchStep_keeps) onwards
    show (u.env.rebudget _ _).done = false
    rw [Bench.rebudget_done]
    simp only [Bool.or_eq_false_iff, decide_eq_false_iff_not]
    omega
  · show (t.env.rebudget _ _).done = true
    rw [Bench.rebudget_done, count]
    simp

end

end ChipEight
