import ChipEight.Jit.Refinement
import ChipEight.Jit.Safepoints

/-! How far a benchmark JIT runs past its budget.

The emitted code compares the retired count with `bench_next_safepoint` at safepoints
only, and sees `program_over` only where a back edge is closed. Behind every back edge
that is taken the count is below the next check, which is less than one interval past the
budget; from there control goes through each block of the trace at most once.
-/

set_option autoImplicit false

namespace ChipEight

/-! ## The next check -/

namespace Bench

/-- The budget, or the one instruction a run without budget executes. -/
def limit (b : Bench) : Nat := max b.budget.toNat 1

/-- The next check is due less than an interval past the budget, until the end was noticed. -/
structure Watched (b : Bench) : Prop where
  ahead : b.programOver = false → b.nextSafepoint < b.limit + safepointInterval
  isOver : b.programOver = true → b.done = true

/-- What the services of the host, and the accounting of the emitted code, keep. -/
structure Watches (b b' : Bench) : Prop where
  retired : b.retired ≤ b'.retired
  pollClock : b.pollClock ≤ b'.pollClock
  budget : b'.budget = b.budget
  clockCap : b'.clockCap = b.clockCap
  watched : b.Watched → b'.Watched

section
variable {b b' b'' : Bench}

theorem Watches.refl (b : Bench) : Watches b b :=
  ⟨Nat.le_refl _, Nat.le_refl _, rfl, rfl, id⟩

theorem Watches.trans (first : Watches b b') (second : Watches b' b'') : Watches b b'' where
  retired := Nat.le_trans first.retired second.retired
  pollClock := Nat.le_trans first.pollClock second.pollClock
  budget := second.budget.trans first.budget
  clockCap := second.clockCap.trans first.clockCap
  watched watched := second.watched (first.watched watched)

theorem done_mono (retired : b.retired ≤ b'.retired) (pollClock : b.pollClock ≤ b'.pollClock)
    (budget : b'.budget = b.budget) (clockCap : b'.clockCap = b.clockCap) (isOver : b.done = true) :
    b'.done = true := by
  have later : b.now ≤ b'.now := Nat.add_le_add retired pollClock
  simp only [done, Bool.or_eq_true, decide_eq_true_eq] at isOver ⊢
  omega

theorem limit_eq (budget : b'.budget = b.budget) : b'.limit = b.limit := by
  rw [limit, limit, budget]

theorem retired_lt_limit (going : b.done = false) : b.retired < b.limit := by
  simp only [done, Bool.or_eq_false_iff, decide_eq_false_iff_not] at going
  unfold limit
  omega

theorem Watches.of_same (retired : b.retired ≤ b'.retired) (pollClock : b.pollClock ≤ b'.pollClock)
    (budget : b'.budget = b.budget) (clockCap : b'.clockCap = b.clockCap)
    (check : b'.nextSafepoint = b.nextSafepoint) (flag : b'.programOver = b.programOver) :
    Watches b b' where
  retired := retired
  pollClock := pollClock
  budget := budget
  clockCap := clockCap
  watched watched :=
    { ahead := fun going => by
        rw [check, limit_eq budget]
        exact watched.ahead (flag ▸ going)
      isOver := fun isOver => done_mono retired pollClock budget clockCap (watched.isOver (flag ▸ isOver)) }

theorem Watches.of_keeps (keeps : Keeps b b') (check : b'.nextSafepoint = b.nextSafepoint)
    (flag : b'.programOver = b.programOver) : Watches b b' :=
  .of_same (Nat.le_of_eq keeps.retired.symm) keeps.pollClock keeps.budget keeps.clockCap check flag

theorem watches_setOver (isOver : b.done = true) : Watches b b.setOver where
  retired := Nat.le_refl _
  pollClock := Nat.le_refl _
  budget := rfl
  clockCap := rfl
  watched _ := ⟨fun going => Bool.noConfusion going, fun _ => isOver⟩

end

theorem watches_syncTimers (b : Bench) : Watches b b.syncTimers := by
  apply Watches.of_keeps (keeps_syncTimers b) <;> · unfold syncTimers; dsimp only; split <;> rfl

theorem watches_rollTick (t : Int) (b : Bench) : Watches b (b.rollTick t) := by
  apply Watches.of_keeps (keeps_rollTick t b) <;> · unfold rollTick; split <;> rfl

theorem watches_keysNow (b : Bench) : Watches b b.keysNow.2 := by
  rw [keysNow_snd]
  exact watches_rollTick _ b

theorem watches_pollKeys (b : Bench) : Watches b b.pollKeys.2 :=
  have charged : Watches b { b with pollClock := b.pollClock + pollCost } :=
    .of_same (Nat.le_refl _) (Nat.le_add_right _ _) rfl rfl rfl rfl
  charged.trans (watches_keysNow _)

theorem watches_awaitKeys (b : Bench) : Watches b (b.awaitKeys setOver).2 := by
  unfold awaitKeys
  generalize b.awaitFuel = fuel
  induction fuel generalizing b with
  | zero => exact .refl b
  | succ fuel ih =>
    have polled := watches_pollKeys b
    simp only [awaitLoop]
    split
    · rename_i isOver
      exact polled.trans (watches_setOver isOver)
    · split
      · exact polled.trans (ih _)
      · exact polled

theorem watches_checkInterrupt (b : Bench) : Watches b b.checkInterrupt := by
  have synced := watches_syncTimers b
  unfold checkInterrupt
  dsimp only
  split
  · rename_i isOver
    exact synced.trans (watches_setOver isOver)
  · exact synced

theorem checkInterrupt_going {b : Bench} (going : b.checkInterrupt.programOver = false) :
    b.checkInterrupt.done = false := by
  unfold checkInterrupt at going ⊢
  dsimp only at going ⊢
  split at going
  · cases going
  · rename_i runs
    rw [if_neg runs]
    exact Bool.eq_false_iff.mpr runs

theorem advanceLoop_le (retired fuel next : Nat) (due : next ≤ retired) :
    advanceLoop retired fuel next ≤ retired + safepointInterval := by
  induction fuel generalizing next with
  | zero => exact Nat.le_trans due (Nat.le_add_right _ _)
  | succ fuel ih =>
    simp only [advanceLoop]
    split
    · rename_i again
      exact ih _ again
    · exact Nat.add_le_add_right due _

theorem checkInterrupt_counts (b : Bench) : b.checkInterrupt.retired = b.retired ∧
    b.checkInterrupt.nextSafepoint = b.nextSafepoint := by
  unfold checkInterrupt syncTimers
  dsimp only
  split_ifs <;> exact ⟨rfl, rfl⟩

theorem watches_safepoint (b : Bench) : Watches b b.safepoint := by
  unfold safepoint
  split
  · rename_i due
    have checked := watches_checkInterrupt b
    obtain ⟨retired, check⟩ := checkInterrupt_counts b
    refine ⟨checked.retired, checked.pollClock, checked.budget, checked.clockCap, fun watched => ?_⟩
    refine ⟨fun going => ?_, (checked.watched watched).isOver⟩
    have next : b.checkInterrupt.advanceSafepoint.nextSafepoint ≤
        b.checkInterrupt.retired + safepointInterval :=
      advanceLoop_le _ _ _ (by rw [retired, check]; exact due)
    exact Nat.lt_of_le_of_lt next
      (Nat.add_lt_add_right (retired_lt_limit (checkInterrupt_going going)) _)
  · exact .refl b

theorem safepoint_retired (b : Bench) : b.safepoint.retired = b.retired := by
  unfold safepoint
  split
  · exact (checkInterrupt_counts b).1
  · rfl

theorem safepoint_ahead (b : Bench) : b.safepoint.retired < b.safepoint.nextSafepoint := by
  unfold safepoint
  split
  · exact advanceSafepoint_gt b.checkInterrupt
  · exact Nat.lt_of_not_le ‹_›

end Bench

namespace Jit

section
variable (rng : Nat → BitVec 32) (undefinedShift : Byte → BitVec 32)

theorem benchHost_watches : (benchHost rng undefinedShift).Keeps Bench.Watches where
  platform := {
    refl := .refl
    trans := .trans
    interrupt := Bench.watches_syncTimers
    syncTimers := Bench.watches_syncTimers
    getDelayTimer := .refl
    setDelayTimer := fun _ _ => .of_same (Nat.le_refl _) (Nat.le_refl _) rfl rfl rfl rfl
    setSoundTimer := fun _ _ => .of_same (Nat.le_refl _) (Nat.le_refl _) rfl rfl rfl rfl
    rand := fun _ => .of_same (Nat.le_refl _) (Nat.le_refl _) rfl rfl rfl rfl
    allKeysDown := Bench.watches_keysNow
    clearKey := fun _ b => (Bench.watches_rollTick _ b).trans
      (.of_same (Nat.le_refl _) (Nat.le_refl _) rfl rfl rfl rfl)
    awaitKeys := Bench.watches_awaitKeys
    frameSync := .refl }
  checkInterrupt := Bench.watches_checkInterrupt
  retire _ _ := .of_same (Nat.le_add_right _ _) (Nat.le_refl _) rfl rfl rfl rfl
  safepoint := Bench.watches_safepoint
  idleWait := .refl

/-! ## What code retires -/

/-- The host that does not count. -/
def stillHost : Host Bench := { benchHost rng undefinedShift with retire := fun _ e => e }

theorem stillHost_keeps :
    (stillHost rng undefinedShift).Keeps fun b b' => b'.retired = b.retired where
  platform := {
    refl := fun _ => rfl
    trans := fun first second => second.trans first
    interrupt := fun b => (Bench.keeps_syncTimers b).retired
    syncTimers := fun b => (Bench.keeps_syncTimers b).retired
    getDelayTimer := fun _ => rfl
    setDelayTimer := fun _ _ => rfl
    setSoundTimer := fun _ _ => rfl
    rand := fun _ => rfl
    allKeysDown := fun b => (Bench.keeps_keysNow b).retired
    clearKey := fun key b => (keeps_clearKey undefinedShift key b).retired
    awaitKeys := fun b => (Bench.keeps_awaitKeys Bench.keeps_setOver b).retired
    frameSync := fun _ => rfl }
  checkInterrupt b := (Bench.checkInterrupt_counts b).1
  retire _ _ := rfl
  safepoint := Bench.safepoint_retired
  idleWait _ := rfl

end

def Op.spends : Op → Nat
  | .retire n => n
  | _ => 0

def spends (ops : List Op) : Nat := (ops.map Op.spends).sum

/-- The most a way through the code retires. -/
def Code.spends : Code → Nat
  | .op o k => o.spends + k.spends
  | .cond _ _ _ taken fallen => max taken.spends fallen.spends
  | _ => 0

/-- The most a way to a `goto` retires, where the edge of a skip not taken leaves the trace. -/
def Code.through : Code → Nat
  | .op o k => o.spends + k.through
  | .cond _ _ _ taken _ => taken.through
  | _ => 0

theorem seq_spends (ops : List Op) (k : Code) : (seq ops k).spends = spends ops + k.spends := by
  induction ops with
  | nil => exact (Nat.zero_add _).symm
  | cons o ops ih =>
    show o.spends + (seq ops k).spends = o.spends + spends ops + k.spends
    rw [ih, Nat.add_assoc]

theorem seq_through (ops : List Op) (k : Code) : (seq ops k).through = spends ops + k.through := by
  induction ops with
  | nil => exact (Nat.zero_add _).symm
  | cons o ops ih =>
    show o.spends + (seq ops k).through = o.spends + spends ops + k.through
    rw [ih, Nat.add_assoc]

theorem spends_append (first second : List Op) :
    spends (first ++ second) = spends first + spends second := by
  rw [spends, List.map_append, List.sum_append]
  rfl

section
variable {rng : Nat → BitVec 32} {undefinedShift : Byte → BitVec 32}

theorem stillHost_run (h : Helper) (m : Machine Bench) :
    h.run (stillHost rng undefinedShift) m = h.run (benchHost rng undefinedShift) m := by
  cases h <;> rfl

theorem Op.run_retired {o : Op} {f f' : Frame Bench}
    (ran : o.run (benchHost rng undefinedShift) f = some f') :
    f'.machine.env.retired = f.machine.env.retired + o.spends := by
  cases o with
  | retire n =>
    cases ran
    rfl
  | call h =>
    have still : (Op.call h).run (stillHost rng undefinedShift) f = some f' := by
      rw [Op.run, stillHost_run]
      exact ran
    exact Op.run_keeps (stillHost_keeps rng undefinedShift) still
  | safepoint =>
    cases ran
    exact Bench.safepoint_retired _
  | load | setReg | setAddr | setPc | getDelay | setDelay | setSound =>
    cases ran
    rfl

theorem Code.run_retired {k : Code} {f : Frame Bench} {m : Machine Bench} {exit : Exit}
    (ran : k.run (benchHost rng undefinedShift) f = some (m, exit)) :
    m.env.retired ≤ f.machine.env.retired + k.spends := by
  induction k generalizing f with
  | op o k ih =>
    obtain ⟨g, first, rest⟩ := Option.bind_eq_some_iff.mp ran
    have counted := ih rest
    rw [Op.run_retired first] at counted
    exact Nat.add_assoc _ _ _ ▸ counted
  | cond c x y taken fallen taken_ih fallen_ih =>
    rw [Code.run] at ran
    rw [Code.spends]
    split at ran
    · exact Nat.le_trans (taken_ih ran) (Nat.add_le_add_left (Nat.le_max_left _ _) _)
    · exact Nat.le_trans (fallen_ih ran) (Nat.add_le_add_left (Nat.le_max_right _ _) _)
  | goto a | backedge a | ret =>
    cases ran
    exact Nat.le_refl _

theorem Code.run_stays {E : Type} {P : Host E} {k : Code} (leaves : k.goesOn = false) {f : Frame E}
    {m : Machine E} {exit : Exit} (ran : k.run P f = some (m, exit)) (a : Word) :
    exit ≠ .goto a := by
  induction k generalizing f with
  | op o k ih =>
    obtain ⟨g, -, rest⟩ := Option.bind_eq_some_iff.mp ran
    exact ih leaves rest
  | cond | goto => cases leaves
  | backedge | ret =>
    cases ran
    simp

variable {b : Build} {blocks : List (Word × Code)}

theorem WellMade.goto_retired {i : Nat} {recent : List Op} {k : Code}
    (made : WellMade blocks i recent k) {f : Frame Bench} {m : Machine Bench} {a : Word}
    (ran : k.run (benchHost rng undefinedShift) f = some (m, .goto a)) :
    m.env.retired ≤ f.machine.env.retired + k.through ∧
      ∃ code : Code, blocks[i + 1]? = some (a, code) := by
  induction k generalizing recent f with
  | op o k ih =>
    obtain ⟨g, first, rest⟩ := Option.bind_eq_some_iff.mp ran
    obtain ⟨counted, there⟩ := ih made rest
    rw [Op.run_retired first] at counted
    exact ⟨Nat.add_assoc _ _ _ ▸ counted, there⟩
  | cond c x y taken fallen taken_ih =>
    rw [Code.run] at ran
    split at ran
    · exact taken_ih made.1 ran
    · exact absurd rfl (Code.run_stays made.2.2 ran a)
  | goto =>
    cases ran
    exact ⟨Nat.le_refl _, made⟩
  | backedge | ret => cases ran

theorem WellMade.backedge_ahead {i : Nat} {recent : List Op} {k : Code}
    (made : WellMade blocks i recent k) {f g : Frame Bench}
    (before : runAll (benchHost rng undefinedShift) recent f = some g) {m : Machine Bench} {t : Word}
    (ran : k.run (benchHost rng undefinedShift) g = some (m, .backedge t)) :
    m.env.retired < m.env.nextSafepoint ∧ ∃ j : Nat, ∃ code : Code, blocks[j]? = some (t, code) := by
  induction k generalizing recent f g with
  | op o k ih =>
    obtain ⟨g', first, rest⟩ := Option.bind_eq_some_iff.mp ran
    have next : runAll (benchHost rng undefinedShift) (recent ++ [o]) f = some g' := by
      rw [runAll_append, before, Option.bind_some, runAll, first]
      rfl
    exact ih made next rest
  | cond c x y taken fallen taken_ih fallen_ih =>
    rw [Code.run] at ran
    split at ran
    · exact taken_ih made.1 (show runAll _ [] g = some g from rfl) ran
    · exact fallen_ih made.2.1 (show runAll _ [] g = some g from rfl) ran
  | goto => cases ran
  | backedge =>
    cases ran
    obtain ⟨⟨ops, closes, front, rfl⟩, there⟩ := made
    refine ⟨?_, there⟩
    rw [runAll_append] at before
    obtain ⟨h, -, last⟩ := Option.bind_eq_some_iff.mp before
    have ahead := Bench.safepoint_ahead h.machine.env
    obtain rfl | rfl := closes
    · cases last
      exact ahead
    · cases last
      simp only [Machine.idleWait]
      split <;> exact ahead
  | ret => cases ran

end

/-! ## What a block retires -/

section
variable {b : Build} {memory : Memory}

theorem spends_operand (i : Nat) (x : Reg) : spends (b.operand i x).1 = 0 := by
  unfold Build.operand
  split <;> rfl

theorem spends_idleWait (t : Word) : spends (b.idleWait memory t) = 0 := by
  unfold Build.idleWait
  split <;> rfl

theorem spends_syncTimers : spends b.syncTimers = 0 := by
  unfold Build.syncTimers
  split <;> rfl

theorem spends_aluOps (o : AluOp) (x y : Reg) : spends (aluOps b o x y) = 0 := by
  obtain ⟨backend, bench, elideIdle⟩ := b
  cases backend <;> cases o <;> rfl

theorem spends_skipCond (c : SkipCond) : spends (emitSkipCond b c).2.1 = 0 := by
  cases c with
  | eqImm x kk | neImm x kk => exact spends_operand 0 x
  | eqReg x y | neReg x y =>
    exact (spends_append _ _).trans (by rw [spends_operand, spends_operand])

theorem spends_prologue (bench : b.bench = true) (opCount : Nat) :
    spends (prologue b opCount) = 1 := by
  rw [prologue, spends_append, Build.retire, bench]
  split <;> rfl

theorem closeLoop_spends (pc : Word) : (closeLoop b memory pc).spends = 0 := by
  rw [closeLoop, seq_spends, spends_append, spends_idleWait]
  rfl

theorem closeLoop_through (pc : Word) : (closeLoop b memory pc).through = 0 := by
  rw [closeLoop, seq_through, spends_append, spends_idleWait]
  rfl

variable {pcBlock : List Word} {pc fusedOp : Word}

theorem fallen_spends (bench : b.bench = true) :
    (b.emitFallen (b.idleWait memory) pcBlock pc fusedOp).spends ≤ 1 := by
  have folded (t : Word) : spends (b.retire 1 ++ [.safepoint, .setPc (.const t)]) = 1 := by
    rw [spends_append, Build.retire, bench]
    rfl
  unfold Build.emitFallen
  split
  · dsimp only
    split
    · rw [seq_spends, spends_append, spends_idleWait, folded]
      rfl
    · rw [seq_spends, folded]
      rfl
  · rw [seq_spends]
    exact Nat.zero_le 1

theorem stop_spends {opCount : Nat} {i : Insn} {body : Code}
    (emitted : emitOf b (b.idleWait memory) pcBlock pc fusedOp opCount i = .stop body) :
    body.spends = 0 ∧ body.through = 0 := by
  have ended {ops : List Op} (k : Code) (none : k.spends = 0 ∧ k.through = 0)
      (quiet : spends ops = 0) : (seq ops k).spends = 0 ∧ (seq ops k).through = 0 := by
    rw [seq_spends, seq_through, quiet, none.1, none.2]
    exact ⟨rfl, rfl⟩
  cases i with
  | jp nnn =>
    simp only [emitOf, Build.emitJump, Build.terminal] at emitted
    split at emitted
    · cases emitted
      refine ended _ ⟨rfl, rfl⟩ ?_
      rw [spends_append, spends_idleWait]
      rfl
    · split at emitted
      · cases emitted
      · cases emitted
        exact ended _ ⟨rfl, rfl⟩ rfl
  | jpV0 nnn =>
    cases emitted
    refine ended _ ⟨rfl, rfl⟩ ?_
    rw [spends_append, spends_operand]
    rfl
  | ret | call | skipKey | ldKey | bcd | save =>
    cases emitted
    exact ended _ ⟨rfl, rfl⟩ rfl
  | _ => cases emitted

theorem next_plain {opCount : Nat} {i : Insn} {pc' : Word} {body : Code → Code}
    (noSkip : ∀ c, i ≠ .skip c)
    (emitted : emitOf b (b.idleWait memory) pcBlock pc fusedOp opCount i = .next pc' body)
    (rest : Code) : (body rest).spends = rest.spends ∧ (body rest).through = rest.through := by
  have ahead {ops : List Op} (quiet : spends ops = 0) :
      (seq ops rest).spends = rest.spends ∧ (seq ops rest).through = rest.through := by
    rw [seq_spends, seq_through, quiet, Nat.zero_add, Nat.zero_add]
    exact ⟨rfl, rfl⟩
  have behind {ops : List Op} (o : Op) (x : Reg) (quiet : spends ops = 0) (last : o.spends = 0) :
      spends ((b.operand 0 x).1 ++ ops ++ [o]) = 0 := by
    rw [spends_append, spends_append, spends_operand, quiet]
    exact (Nat.zero_add _).trans last
  cases i with
  | jp nnn =>
    simp only [emitOf, Build.emitJump, Build.terminal] at emitted
    split at emitted
    · cases emitted
    · split at emitted
      · cases emitted
        exact ahead rfl
      · cases emitted
  | skip c => exact absurd rfl (noSkip c)
  | alu o x y =>
    cases emitted
    exact ahead (spends_aluOps o x y)
  | ldDelay x =>
    cases emitted
    refine ahead ?_
    rw [spends_append, spends_syncTimers]
    rfl
  | setDelay x | setSound x =>
    cases emitted
    exact ahead (behind _ x spends_syncTimers rfl)
  | add x kk | addI x | ldF x =>
    cases emitted
    refine ahead ?_
    rw [spends_append, spends_operand]
    rfl
  | cls | ld | ldI | rnd | drw | restore =>
    cases emitted
    exact ahead rfl
  | _ => cases emitted

theorem next_spends (bench : b.bench = true) {opCount : Nat} {i : Insn} {pc' : Word}
    {body : Code → Code}
    (emitted : emitOf b (b.idleWait memory) pcBlock pc fusedOp opCount i = .next pc' body)
    (rest : Code) :
    (body rest).spends ≤ max rest.spends 1 ∧ (body rest).through = rest.through := by
  by_cases skip : ∃ c, i = .skip c
  · obtain ⟨c, rfl⟩ := skip
    cases emitted
    rw [seq_spends, seq_through, spends_skipCond, Nat.zero_add, Nat.zero_add]
    refine ⟨?_, seq_through _ _ |>.trans (Nat.zero_add _)⟩
    have taken : (seq [.setPc (.const (pc + 4))] rest).spends = rest.spends :=
      seq_spends _ _ |>.trans (Nat.zero_add _)
    rw [Code.spends, taken]
    exact max_le_max (Nat.le_refl _) (fallen_spends bench)
  · obtain ⟨spent, through⟩ := next_plain (fun c same => skip ⟨c, same⟩) emitted rest
    exact ⟨spent ▸ Nat.le_max_left _ _, through⟩

theorem BlockOf.spends (bench : b.bench = true) {a : Word} {code : Code}
    (block : BlockOf b memory a code) : code.spends ≤ 2 ∧ code.through ≤ 1 := by
  cases block with
  | @stop pcBlock opCount i body decoded emitted =>
    obtain ⟨none, through⟩ := stop_spends emitted
    rw [seq_spends, seq_through, spends_prologue bench, none, through]
    exact ⟨by decide, by decide⟩
  | @next pcBlock opCount i pc' body rest decoded emitted closing =>
    obtain ⟨spent, through⟩ := next_spends bench emitted rest
    rw [seq_spends, seq_through, spends_prologue bench, through]
    obtain rfl | rfl := closing
    · exact ⟨Nat.add_le_add_left spent 1, Nat.le_refl 1⟩
    · rw [closeLoop_spends] at spent
      rw [closeLoop_through]
      exact ⟨Nat.add_le_add_left spent 1, Nat.le_refl 1⟩

end

/-! ## Where a run stands -/

section
variable {rng : Nat → BitVec 32} {undefinedShift : Byte → BitVec 32}
variable {b : Build} {memory : Memory} {blocks : List (Word × Code)}

theorem runAll_retired {ops : List Op} {f f' : Frame Bench}
    (ran : runAll (benchHost rng undefinedShift) ops f = some f') :
    f'.machine.env.retired = f.machine.env.retired + spends ops := by
  induction ops generalizing f with
  | nil =>
    cases ran
    rfl
  | cons o ops ih =>
    obtain ⟨g, first, rest⟩ := Option.bind_eq_some_iff.mp ran
    rw [ih rest, Op.run_retired first, Nat.add_assoc]
    rfl

theorem block_retired (bench : b.bench = true) (laid : Laid b blocks) {i : Nat} {a : Word}
    {code : Code} (here : blocks[i]? = some (a, code)) (block : BlockOf b memory a code)
    {f : Frame Bench} {m : Machine Bench} {exit : Exit}
    (ran : code.run (benchHost rng undefinedShift) f = some (m, exit)) :
    Bench.Watches f.machine.env m.env ∧ f.machine.env.retired < m.env.retired ∧
      m.env.retired ≤ f.machine.env.retired + 2 ∧
      (∀ t, exit = .goto t → m.env.retired ≤ f.machine.env.retired + 1 ∧
        ∃ next : Code, blocks[i + 1]? = some (t, next)) ∧
      ∀ t, exit = .backedge t → m.env.retired < m.env.nextSafepoint ∧
        ∃ j : Nat, ∃ there : Code, blocks[j]? = some (t, there) := by
  obtain ⟨spent, through⟩ := block.spends bench
  have watches := benchHost_watches rng undefinedShift
  obtain ⟨body, rfl, made⟩ := laid.built i a code here
  have whole : WellMade blocks i [] (seq (prologue b i) body) := made.behind _
  refine ⟨Code.run_keeps watches ran, ?_, ?_, ?_, ?_⟩
  · rw [seq_run] at ran
    obtain ⟨g, entered, rest⟩ := Option.bind_eq_some_iff.mp ran
    have counted := runAll_retired entered
    rw [spends_prologue bench] at counted
    have later := (Code.run_keeps watches rest).retired
    omega
  · exact Nat.le_trans (Code.run_retired ran) (Nat.add_le_add_left spent _)
  · rintro t rfl
    obtain ⟨counted, there⟩ := whole.goto_retired ran
    exact ⟨Nat.le_trans counted (Nat.add_le_add_left through _), there⟩
  · rintro t rfl
    exact whole.backedge_ahead (show runAll _ [] f = some f from rfl) ran

/-- What the retired count is at most at a position, where no trace has more than `M` blocks. -/
def Placed (b : Build) (M : Nat) (env : Bench) : Position → Prop
  | .top => env.retired < env.limit
  | .running t a => Laid b t.blocks ∧ t.blocks.length ≤ M ∧
      ∃ i : Nat, ∃ code : Code, t.blocks[i]? = some (a, code) ∧ env.retired < env.limit + 63 + i
  | .backedge t a => Laid b t.blocks ∧ t.blocks.length ≤ M ∧
      (∃ i : Nat, ∃ code : Code, t.blocks[i]? = some (a, code)) ∧
      env.retired ≤ env.limit + 63 + M ∧
      (env.programOver = false → env.retired < env.limit + 63)
  | .returned => env.retired ≤ env.limit + 63 + M
  | .stopped why => env.retired ≤ env.limit + 63 + M ∧ why ≠ .outOfFuel ∧
      (why = .quit → env.done = true)

/-- No cached trace has more than `M` blocks. -/
def Short (M : Nat) (d : Dispatcher Bench) : Prop :=
  ∀ p t, d.cache p = some t → t.blocks.length ≤ M

structure Paced (b : Build) (M : Nat) (d : Dispatcher Bench) : Prop where
  coherent : Coherent b d
  watched : d.machine.env.Watched
  placed : Placed b M d.machine.env d.position

theorem Traced.laid {t : Trace} (traced : Traced b t) : Laid b t.blocks := by
  obtain ⟨memory, rest, made, -⟩ := traced
  exact (codegen_laid made).1

theorem Traced.short {t : Trace} (traced : Traced b t) : t.blocks.length ≤ 2 ^ 16 := by
  have all := words_length_le traced.laid.distinct
  rwa [List.length_map] at all

theorem service_env (d : Dispatcher Bench) :
    (d.service (benchHost rng undefinedShift)).machine.env =
        d.machine.env.checkInterrupt.keysNow.2 ∧
      ((d.service (benchHost rng undefinedShift)).position =
        if d.machine.env.checkInterrupt.keysNow.2.programOver then .stopped .quit else .top) := by
  have quiet : (d.machine.env.checkInterrupt.keysNow.1 &&& quitBit != 0#32) = false := by
    rw [keysNow_quit]
    rfl
  cases pending : d.machine.smcPending with
  | true =>
    simp only [Dispatcher.service, Machine.mapEnv, pending, if_true,
      Dispatcher.invalidateTraces, benchHost, benchPlatform, quiet, Bool.false_or]
    split <;> exact ⟨rfl, rfl⟩
  | false =>
    simp only [Dispatcher.service, Machine.mapEnv, pending, Bool.false_eq_true, if_false,
      benchHost, benchPlatform, quiet, Bool.false_or]
    split <;> exact ⟨rfl, rfl⟩

theorem keysNow_programOver (b : Bench) : b.keysNow.2.programOver = b.programOver := by
  rw [Bench.keysNow_snd]
  unfold Bench.rollTick
  split <;> rfl

theorem service_placed {M : Nat} {d : Dispatcher Bench} (watched : d.machine.env.Watched)
    (spent : d.machine.env.retired ≤ d.machine.env.limit + 63 + M) :
    Placed b M (d.service (benchHost rng undefinedShift)).machine.env
      (d.service (benchHost rng undefinedShift)).position := by
  obtain ⟨env, position⟩ := @service_env rng undefinedShift d
  have served := (Bench.watches_checkInterrupt d.machine.env).trans
    (Bench.watches_keysNow d.machine.env.checkInterrupt)
  have same : d.machine.env.checkInterrupt.keysNow.2.retired = d.machine.env.retired :=
    (Bench.keeps_keysNow _).retired.trans (Bench.checkInterrupt_counts _).1
  rw [env, position]
  split
  · rename_i isOver
    refine ⟨?_, by decide, fun _ => (served.watched watched).isOver isOver⟩
    rw [same, Bench.limit_eq served.budget]
    exact spent
  · rename_i going
    rw [keysNow_programOver, Bool.not_eq_true] at going
    have before := Bench.retired_lt_limit (Bench.checkInterrupt_going going)
    show d.machine.env.checkInterrupt.keysNow.2.retired < Bench.limit _
    rw [(Bench.keeps_keysNow _).retired, Bench.limit_eq (Bench.keeps_keysNow _).budget]
    exact before

/-- The step lemma: a block moves the count up by one and the place by one. -/
theorem Paced.step (bench : b.bench = true) {M : Nat} {d d' : Dispatcher Bench}
    (paced : Paced b M d) (short : Short M d)
    (next : d.step (benchHost rng undefinedShift) b = some d') : Paced b M d' := by
  have watches := step_keeps (benchHost_watches rng undefinedShift) next
  refine ⟨step_coherent _ b paced.coherent next, watches.watched paced.watched, ?_⟩
  have placed := paced.placed
  unfold Dispatcher.step at next
  cases here : d.position with
  | top =>
    rw [here] at next placed
    dsimp only at next
    split at next
    · cases next
      obtain ⟨rest, blocks, -, same⟩ | ⟨-, same⟩ := compile_cases b d
      · rw [same]
        dsimp only
        rw [here]
        exact placed
      · rw [same]
        refine ⟨?_, by decide, fun quit => by cases quit⟩
        exact Nat.le_trans (Nat.le_of_lt placed) (by rw [Nat.add_assoc]; exact Nat.le_add_right _ _)
    · rename_i t hit
      cases next
      -- The trace is entered below the limit, at a block of its own.
      obtain ⟨-, traced⟩ := paced.coherent.traced _ t hit
      obtain ⟨⟨a, code⟩, inside, rfl⟩ := List.mem_map.mp (Traced.start_mem b traced)
      obtain ⟨i, first⟩ := List.getElem?_of_mem inside
      refine ⟨traced.laid, short _ t hit, i, code, first, ?_⟩
      exact Nat.lt_of_lt_of_le placed (by rw [Nat.add_assoc]; exact Nat.le_add_right _ _)
  | running t a =>
    rw [here] at next placed
    obtain ⟨laid, few, i, code, first, spent⟩ := placed
    obtain ⟨code', found, rest⟩ := Option.bind_eq_some_iff.mp next
    obtain ⟨j, second⟩ := block_here found
    obtain rfl : i = j := unique_index laid.distinct first second
    obtain rfl : code = code' := congrArg Prod.snd (Option.some.inj (first.symm.trans second))
    obtain ⟨inside, -⟩ := List.getElem?_eq_some_iff.mp first
    cases ran : code.run (benchHost rng undefinedShift) ⟨d.machine, fun _ => 0#8⟩ with
    | none =>
      rw [ran] at rest
      cases rest
      refine ⟨?_, by decide, fun quit => by cases quit⟩
      show d.machine.env.retired ≤ d.machine.env.limit + 63 + M
      omega
    | some out =>
      rw [ran] at rest
      cases rest
      obtain ⟨m, exit⟩ := out
      obtain ⟨memory, block, -⟩ := paced.coherent.block b here found
      obtain ⟨-, -, two, goes, closes⟩ := block_retired bench laid first block ran
      have limit : m.env.limit = d.machine.env.limit := Bench.limit_eq watches.budget
      dsimp only at two goes closes ⊢
      cases exit with
      | goto t' =>
        obtain ⟨one, code', after⟩ := goes t' rfl
        refine ⟨laid, few, i + 1, code', after, ?_⟩
        rw [limit]
        omega
      | backedge t' =>
        -- The count is below the next safepoint, which is less than an interval beyond the limit.
        obtain ⟨ahead, there⟩ := closes t' rfl
        refine ⟨laid, few, there, by rw [limit]; omega, fun going => ?_⟩
        have check := (watches.watched paced.watched).ahead going
        simp only [Bench.safepointInterval] at check
        omega
      | ret =>
        show m.env.retired ≤ _
        rw [limit]
        omega
  | backedge t a =>
    rw [here] at next placed
    obtain ⟨laid, few, ⟨i, code, there⟩, spent, going⟩ := placed
    dsimp only at next
    split at next
    · cases next
      exact spent
    · rename_i runs
      cases next
      refine ⟨laid, few, i, code, there, ?_⟩
      exact Nat.lt_of_lt_of_le (going (Bool.eq_false_iff.mpr runs)) (Nat.le_add_right _ _)
  | returned =>
    rw [here] at next placed
    cases next
    exact service_placed paced.watched placed
  | stopped why =>
    rw [here] at next
    cases next

/-! ## The run ends -/

/-- How far a position is from the next block. -/
def Position.away (cached : Bool) : Position → Nat
  | .stopped _ => 0
  | .running _ _ => 1
  | .top => if cached then 2 else 3
  | .returned => 4
  | .backedge _ _ => 5

def away (d : Dispatcher Bench) : Nat :=
  d.position.away (d.cache d.machine.vm.programCounter).isSome

/-- What is left of a run in which no trace has more than `M` blocks. -/
def remaining (M : Nat) (d : Dispatcher Bench) : Nat :=
  6 * (d.machine.env.limit + 63 + M - d.machine.env.retired) + away d

theorem away_le (d : Dispatcher Bench) : away d ≤ 5 := by
  unfold away
  cases d.position with
  | top => cases (d.cache d.machine.vm.programCounter).isSome <;> decide
  | _ => simp [Position.away]

theorem Placed.spent {M : Nat} {env : Bench} {p : Position} (placed : Placed b M env p) :
    env.retired ≤ env.limit + 63 + M := by
  cases p with
  | top =>
    simp only [Placed] at placed
    omega
  | running t a =>
    obtain ⟨-, few, i, code, here, spent⟩ := placed
    obtain ⟨inside, -⟩ := List.getElem?_eq_some_iff.mp here
    omega
  | backedge t a => exact placed.2.2.2.1
  | returned => exact placed
  | stopped why => exact placed.1

theorem Paced.lowers (bench : b.bench = true) {M : Nat} {d d' : Dispatcher Bench}
    (paced : Paced b M d) (short : Short M d)
    (next : d.step (benchHost rng undefinedShift) b = some d') : remaining M d' < remaining M d := by
  have watches := step_keeps (benchHost_watches rng undefinedShift) next
  have placed' := (paced.step bench short next).placed.spent
  have limit := Bench.limit_eq watches.budget
  -- A step that retires nothing has to come nearer to the next block.
  have nearer (closer : away d' < away d) : remaining M d' < remaining M d := by
    have grows := watches.retired
    simp only [remaining, limit]
    omega
  unfold Dispatcher.step at next
  cases here : d.position with
  | top =>
    rw [here] at next
    dsimp only at next
    split at next
    · rename_i miss
      cases next
      apply nearer
      obtain ⟨rest, blocks, -, same⟩ | ⟨-, same⟩ := compile_cases b d
      · simp [same, away, here, miss, Position.away, Dispatcher.markRead]
      · simp [same, away, here, miss, Position.away]
    · rename_i t hit
      cases next
      apply nearer
      simp [away, here, hit, Position.away]
  | running t a =>
    rw [here] at next
    obtain ⟨code, found, rest⟩ := Option.bind_eq_some_iff.mp next
    cases ran : code.run (benchHost rng undefinedShift) ⟨d.machine, fun _ => 0#8⟩ with
    | none =>
      rw [ran] at rest
      cases rest
      apply nearer
      simp [away, here, Position.away]
    | some out =>
      rw [ran] at rest
      cases rest
      obtain ⟨laid, -, i, code', first, -⟩ := here ▸ paced.placed
      obtain ⟨j, second⟩ := block_here found
      obtain ⟨memory, block, -⟩ := paced.coherent.block b here found
      obtain ⟨-, one, -⟩ := block_retired bench laid second block ran
      -- One instruction more counts six, and no position is more than five steps from a block.
      have far := away_le { d with machine := out.1, position := Dispatcher.leave t out.2 }
      have near : away d = 1 := by rw [away, here, Position.away]
      dsimp only at one limit placed'
      simp only [remaining, near] at far ⊢
      rw [limit] at placed' ⊢
      omega
  | backedge t a =>
    rw [here] at next
    dsimp only at next
    apply nearer
    split at next <;>
    · cases next
      simp [away, here, Position.away]
  | returned =>
    rw [here] at next
    cases next
    apply nearer
    rw [away, away, here]
    obtain at_ | at_ := service_position (benchHost rng undefinedShift) d
    · rw [at_, Position.away, Position.away]
      split <;> decide
    · rw [at_]
      exact Nat.succ_pos 3
  | stopped why =>
    rw [here] at next
    cases next

theorem Coherent.short {d : Dispatcher Bench} (coherent : Coherent b d) : Short (2 ^ 16) d :=
  fun p t hit => (coherent.traced p t hit).2.short

theorem start_paced (M : Nat) (vm : VM) (budget clockCap : Int) (keyMode : KeyMode)
    (delay sound : Byte) : Paced b M (start vm (powerOn budget clockCap keyMode delay sound)) where
  coherent := start_coherent b vm _
  watched := {
    ahead := fun _ => by
      show 64 < max budget.toNat 1 + 64
      omega
    isOver := fun isOver => by cases isOver }
  placed := by
    show 0 < max budget.toNat 1
    omega

theorem paced_run (bench : b.bench = true) {M : Nat} {d d' : Dispatcher Bench} (paced : Paced b M d)
    {n : Nat} (run : Run.after (Dispatcher.step (benchHost rng undefinedShift) b) n d = some d')
    (short : ∀ k u, k < n →
      Run.after (Dispatcher.step (benchHost rng undefinedShift) b) k d = some u → Short M u) :
    Paced b M d' := by
  induction n generalizing d' with
  | zero =>
    cases run
    exact paced
  | succ n ih =>
    obtain ⟨u, earlier, last⟩ := Run.after_succ.mp run
    have pacedU := ih earlier fun k v before => short k v (Nat.lt_succ_of_lt before)
    exact pacedU.step bench (short n u (Nat.lt_succ_self n) earlier) last

end

/-- Every run of a benchmark JIT ends, after a number of steps linear in the budget. Where it
ends by itself, the budget is spent or the clock cap reached; and however it ends, it retired
at most 63 instructions and the blocks of its longest trace more than the budget. -/
theorem bench_run_ends (rng : Nat → BitVec 32) (undefinedShift : Byte → BitVec 32) (b : Build)
    (bench : b.bench = true) (vm : VM) (budget clockCap : Int) (keyMode : KeyMode)
    (delay sound : Byte) :
    ∃ n d why,
      n ≤ 6 * (max budget.toNat 1 + 63 + 2 ^ 16) + 3 ∧
      Run.after (Dispatcher.step (benchHost rng undefinedShift) b) n
        (start vm (powerOn budget clockCap keyMode delay sound)) = some d ∧
      d.position = .stopped why ∧ why ≠ .outOfFuel ∧
      (why = .quit → d.machine.env.done = true) ∧
      d.machine.env.retired ≤ max budget.toNat 1 + 63 + 2 ^ 16 ∧
      ∀ M, (∀ k u, k < n → Run.after (Dispatcher.step (benchHost rng undefinedShift) b) k
          (start vm (powerOn budget clockCap keyMode delay sound)) = some u → Short M u) →
        d.machine.env.retired ≤ max budget.toNat 1 + 63 + M := by
  set s := start vm (powerOn budget clockCap keyMode delay sound) with isStart
  set step := Dispatcher.step (benchHost rng undefinedShift) b with isStep
  have same : ∀ {k u}, Run.after step k s = some u → u.machine.env.limit = max budget.toNat 1 := by
    intro k u run
    have keeps (u v : Dispatcher Bench) (low : Bench.Watches s.machine.env u.machine.env)
        (last : step u = some v) : Bench.Watches s.machine.env v.machine.env :=
      low.trans (step_keeps (benchHost_watches rng undefinedShift) last)
    have kept := Run.invariant keeps (.refl _) run
    rw [Bench.limit_eq kept.budget]
    rfl
  have keeps (d d' : Dispatcher Bench) (paced : Paced b (2 ^ 16) d) (next : step d = some d') :
      Paced b (2 ^ 16) d' := paced.step bench paced.coherent.short next
  have lowers (d d' : Dispatcher Bench) (paced : Paced b (2 ^ 16) d) (next : step d = some d') :
      remaining (2 ^ 16) d' < remaining (2 ^ 16) d := paced.lowers bench paced.coherent.short next
  -- No trace has more than 2 ^ 16 blocks, so with that bound the measure is good for every run.
  have started : Paced b (2 ^ 16) s := start_paced _ vm budget clockCap keyMode delay sound
  have first : remaining (2 ^ 16) s = 6 * (max budget.toNat 1 + 63 + 2 ^ 16) + 3 := rfl
  obtain ⟨n, within, run⟩ := @Run.finish_after _ step (remaining (2 ^ 16) s) s
  have stops := Run.finish_stops_inv keeps lowers started (Nat.le_refl _)
  set d := Run.finish step (remaining (2 ^ 16) s) s
  have paced : Paced b (2 ^ 16) d := Run.invariant keeps started run
  have ended : ∃ why, d.position = .stopped why := by
    by_contra goes
    have more := step_isSome (benchHost rng undefinedShift) b paced.coherent
      fun why at_ => goes ⟨why, at_⟩
    rw [← isStep, stops] at more
    cases more
  obtain ⟨why, at_⟩ := ended
  obtain ⟨spent, reason, isOver⟩ := at_ ▸ paced.placed
  rw [same run] at spent
  -- The same run again, with the length of the traces it met.
  refine ⟨n, d, why, first ▸ within, run, at_, reason, isOver, spent, fun M short => ?_⟩
  have tight := (paced_run bench (start_paced M vm budget clockCap keyMode delay sound) run
    short).placed.spent
  rwa [same run] at tight

theorem bench_run_ends_loopsOnTimer :
    ∃ n d why,
      n ≤ 6 * (100 + 63 + 2 ^ 16) + 3 ∧
      Run.after (Dispatcher.step (benchHost (fun _ => 0#32) fun _ => 0#32) ⟨.llvm, true, false⟩) n
        (start (VM.boot loopsOnTimer) (powerOn 100 6400 .rotate 0#8 0#8)) = some d ∧
      d.position = .stopped why ∧ why ≠ .outOfFuel ∧
      (why = .quit → d.machine.env.done = true) ∧
      d.machine.env.retired ≤ 100 + 63 + 2 ^ 16 ∧
      ∀ M, (∀ k u, k < n → Run.after
          (Dispatcher.step (benchHost (fun _ => 0#32) fun _ => 0#32) ⟨.llvm, true, false⟩) k
          (start (VM.boot loopsOnTimer) (powerOn 100 6400 .rotate 0#8 0#8)) = some u →
            Short M u) →
        d.machine.env.retired ≤ 100 + 63 + M :=
  bench_run_ends (fun _ => 0#32) (fun _ => 0#32) ⟨.llvm, true, false⟩ rfl (VM.boot loopsOnTimer)
    100 6400 .rotate 0#8 0#8

end Jit

end ChipEight
