import ChipEight.Jit.Traces
import ChipEight.Machine.Effects

/-! Stores made by native code.

Emitted code changes memory only in its last operation before it returns, and such
a store either misses every code byte or leaves `smc_pending` for the dispatcher.
-/

set_option autoImplicit false

namespace ChipEight

namespace Jit

section
variable {E : Type} (P : Host E)

/-! ## Emitted code reports its stores -/

def Helper.stores : Helper → Bool
  | .storeBcd => true
  | .saveRegisters => true
  | _ => false

def Op.stores : Op → Bool
  | .call h => h.stores
  | _ => false

/-- Every storing operation is the last one before the return. -/
def Code.storesLast : Code → Prop
  | .op o k => if o.stores then k = .ret else k.storesLast
  | .cond _ _ _ taken fallen => taken.storesLast ∧ fallen.storesLast
  | _ => True

/-- What self-modifying code is about: memory, the code bytes and the pending flush. -/
def Machine.watch (m : Machine E) : Memory × (Addr → Bool) × Bool :=
  (m.vm.memory, m.codeBytes, m.smcPending)

/-- `m'` comes after `m`, and a store into code in between left a pending flush. -/
structure Guards (m m' : Machine E) : Prop where
  codeBytes : m'.codeBytes = m.codeBytes
  pending : m'.smcPending = false → m.smcPending = false
  memory : m'.smcPending = false → ∀ a, m.codeBytes a = true → m'.vm.memory a = m.vm.memory a

theorem Guards.of_watch {m m' : Machine E} (same : m'.watch = m.watch) : Guards m m' := by
  simp only [Machine.watch, Prod.mk.injEq] at same
  obtain ⟨memory, code, pending⟩ := same
  exact ⟨code, fun clear => pending ▸ clear, fun _ a _ => congrFun memory a⟩

theorem Guards.trans {m m' m'' : Machine E} (first : Guards m m') (second : Guards m' m'') :
    Guards m m'' where
  codeBytes := second.codeBytes.trans first.codeBytes
  pending clear := first.pending (second.pending clear)
  memory clear a code :=
    (second.memory clear a (first.codeBytes ▸ code)).trans
      (first.memory (second.pending clear) a code)

theorem Helper.run_watch {h : Helper} {m m' : Machine E} (quiet : h.stores = false)
    (ran : h.run P m = some m') : m'.watch = m.watch := by
  cases h with
  | storeBcd => cases quiet
  | saveRegisters => cases quiet
  | retern =>
    simp only [Helper.run, Machine.retern] at ran
    split at ran
    · cases ran; rfl
    · cases ran
  | call =>
    simp only [Helper.run, Machine.call] at ran
    split at ran
    · cases ran; rfl
    · cases ran
  | skipKeyXDown | skipKeyXUp =>
    simp only [Helper.run, Machine.skipKeyX, Option.some.injEq] at ran
    subst ran
    split <;> rfl
  | loadOnKey =>
    simp only [Helper.run, Machine.loadOnKey] at ran
    split at ran
    · cases ran
    · cases ran
      exact congrArg (·, m.codeBytes, m.smcPending) (scanKeys_memory _ _ _ _)
  | restoreRegisters =>
    cases ran
    exact congrArg (·, m.codeBytes, m.smcPending) (restoreLoop_memory _ _)
  | idleWait =>
    simp only [Helper.run, Machine.idleWait, Option.some.injEq] at ran
    subst ran
    split <;> rfl
  | clearscreenIo | randomByte | draw | syncTimers => cases ran; rfl

theorem noteStore_pending (a : Word) (n : Nat) (m : Machine E) :
    (m.noteStore a n).smcPending = (m.smcPending || (span a n).any m.codeBytes) := by
  have touched : (span a n).any m.codeBytes =
      (List.range n).any fun i => m.codeBytes (mask (a + BitVec.ofNat 16 i)) := by
    simp [span, Function.comp_def]
  rw [touched, Machine.noteStore]
  split
  · rename_i hit
    rw [hit, Bool.or_true]
  · rename_i missed
    rw [Bool.eq_false_iff.mpr missed, Bool.or_false]

@[simp] theorem noteStore_vm (a : Word) (n : Nat) (m : Machine E) :
    (m.noteStore a n).vm = m.vm := by
  unfold Machine.noteStore; split <;> rfl

@[simp] theorem noteStore_codeBytes (a : Word) (n : Nat) (m : Machine E) :
    (m.noteStore a n).codeBytes = m.codeBytes := by
  unfold Machine.noteStore; split <;> rfl

@[simp] theorem noteStore_env (a : Word) (n : Nat) (m : Machine E) :
    (m.noteStore a n).env = m.env := by
  unfold Machine.noteStore; split <;> rfl

theorem noteStore_guards {m m' : Machine E} {n : Nat} (code : m'.codeBytes = m.codeBytes)
    (pending : m'.smcPending = (m.noteStore m.vm.addr n).smcPending)
    (away : ∀ a, a ∉ span m.vm.addr n → m'.vm.memory a = m.vm.memory a) : Guards m m' := by
  rw [noteStore_pending] at pending
  refine ⟨code, ?_, ?_⟩
  · intro clear
    rw [pending, Bool.or_eq_false_iff] at clear
    exact clear.1
  · intro clear a isCode
    apply away
    intro inside
    rw [pending, Bool.or_eq_false_iff] at clear
    have := List.any_eq_false.mp clear.2 a inside
    exact this isCode

theorem Helper.run_guards {h : Helper} {m m' : Machine E} (ran : h.run P m = some m') :
    Guards m m' := by
  by_cases quiet : h.stores = false
  · exact .of_watch (Helper.run_watch P quiet ran)
  · cases h with
    | storeBcd =>
      cases ran
      refine noteStore_guards (noteStore_codeBytes _ 3 _) rfl fun a away => ?_
      exact (congrArg (fun vm => (Interpreter.bcdStores (opX m.opcode) vm).memory a)
          (noteStore_vm _ _ _)).trans (bcdStores_memory _ _ away)
    | saveRegisters =>
      cases ran
      refine noteStore_guards (noteStore_codeBytes _ ((opX m.opcode).toNat + 1) _) rfl
        fun a away => ?_
      exact (congrArg (fun vm => (Interpreter.saveLoop (opX m.opcode) vm).memory a)
          (noteStore_vm _ _ _)).trans (saveLoop_memory _ _ away)
    | _ => exact absurd rfl quiet

theorem Op.run_watch {o : Op} {f f' : Frame E} (quiet : o.stores = false)
    (ran : o.run P f = some f') : f'.machine.watch = f.machine.watch := by
  cases o with
  | call h =>
    simp only [Op.run, Option.map_eq_some_iff] at ran
    obtain ⟨m, called, rfl⟩ := ran
    exact Helper.run_watch P quiet called
  | _ => cases ran; rfl

theorem Op.run_guards {o : Op} {f f' : Frame E} (ran : o.run P f = some f') :
    Guards f.machine f'.machine := by
  cases o with
  | call h =>
    simp only [Op.run, Option.map_eq_some_iff] at ran
    obtain ⟨m, called, rfl⟩ := ran
    exact Helper.run_guards P called
  | _ => exact .of_watch (Op.run_watch P rfl ran)

theorem Code.run_guards {c : Code} {f : Frame E} {m : Machine E} {exit : Exit}
    (ran : c.run P f = some (m, exit)) : Guards f.machine m := by
  induction c generalizing f with
  | op o k ih =>
    obtain ⟨f', first, later⟩ := Option.bind_eq_some_iff.mp ran
    exact (Op.run_guards P first).trans (ih later)
  | cond c a b taken fallen ihTaken ihFallen =>
    simp only [Code.run] at ran
    split at ran
    · exact ihTaken ran
    · exact ihFallen ran
  | goto pc => cases ran; exact .of_watch rfl
  | backedge pc => cases ran; exact .of_watch rfl
  | ret => cases ran; exact .of_watch rfl

theorem Code.run_watch {c : Code} {f : Frame E} {m : Machine E} {exit : Exit}
    (last : c.storesLast) (ran : c.run P f = some (m, exit)) (inside : exit ≠ .ret) :
    m.watch = f.machine.watch := by
  induction c generalizing f with
  | op o k ih =>
    obtain ⟨f', first, later⟩ := Option.bind_eq_some_iff.mp ran
    cases quiet : o.stores with
    | true =>
      simp only [Code.storesLast, quiet, if_true] at last
      subst last
      cases later
      exact absurd rfl inside
    | false =>
      simp only [Code.storesLast, quiet, Bool.false_eq_true, if_false] at last
      rw [ih last later]
      exact Op.run_watch P quiet first
  | cond c a b taken fallen ihTaken ihFallen =>
    simp only [Code.run] at ran
    split at ran
    · exact ihTaken last.1 ran
    · exact ihFallen last.2 ran
  | goto pc => cases ran; rfl
  | backedge pc => cases ran; rfl
  | ret => cases ran; exact absurd rfl inside

end

/-! ## Every emitted block stores last -/

section
variable (b : Build)

/-- A list of operations none of which stores into memory. -/
def Quiet (ops : List Op) : Prop := ∀ o ∈ ops, o.stores = false

theorem Quiet.append {first second : List Op} (hf : Quiet first) (hs : Quiet second) :
    Quiet (first ++ second) := by
  intro o mem
  rcases List.mem_append.mp mem with inFirst | inSecond
  · exact hf o inFirst
  · exact hs o inSecond

theorem quiet_operand (i : Nat) (x : Reg) : Quiet (b.operand i x).1 := by
  unfold Build.operand
  split <;> simp [Quiet, Op.stores]

theorem quiet_retire (n : Nat) : Quiet (b.retire n) := by
  unfold Build.retire
  split <;> simp [Quiet, Op.stores]

theorem quiet_syncTimers : Quiet b.syncTimers := by
  unfold Build.syncTimers
  split <;> simp [Quiet, Op.stores, Helper.stores]

theorem quiet_idleWait (memory : Memory) (header : Word) : Quiet (b.idleWait memory header) := by
  unfold Build.idleWait
  split <;> simp [Quiet, Op.stores, Helper.stores]

theorem quiet_prologue (opCount : Nat) : Quiet (prologue b opCount) := by
  refine .append ?_ (quiet_retire b 1)
  split <;> simp [Quiet, Op.stores]

theorem quiet_aluOps (o : AluOp) (x y : Reg) : Quiet (aluOps b o x y) := by
  have operand := quiet_operand b
  cases o with
  | move => exact (operand 0 y).append (by simp [Quiet, Op.stores])
  | or | and | xor =>
    exact ((operand 0 x).append (operand 1 y)).append (by simp [Quiet, Op.stores])
  | add | sub | shr | subn | shl => simp [aluOps, aluLow, Build.emitAlu, Quiet, Op.stores]

theorem quiet_skipCond (c : SkipCond) : Quiet (emitSkipCond b c).2.1 := by
  cases c with
  | eqImm x kk | neImm x kk => exact quiet_operand b 0 x
  | eqReg x y | neReg x y => exact (quiet_operand b 0 x).append (quiet_operand b 1 y)

theorem Quiet.seq {ops : List Op} {k : Code} (quiet : Quiet ops) (last : k.storesLast) :
    (seq ops k).storesLast := by
  induction ops with
  | nil => exact last
  | cons o ops ih =>
    have here : o.stores = false := quiet o List.mem_cons_self
    simp only [Jit.seq, List.foldr_cons, Code.storesLast, here]
    exact ih fun o mem => quiet o (List.mem_cons_of_mem _ mem)

section
variable (memory : Memory) (pcBlock : List Word) (pc fusedOp : Word)

open Build

theorem emitFallen_storesLast :
    (b.emitFallen (b.idleWait memory) pcBlock pc fusedOp).storesLast := by
  unfold emitFallen
  dsimp only
  split_ifs
  · refine Quiet.seq (.append (.append (quiet_retire b 1) ?_) (quiet_idleWait b _ _)) trivial
    simp [Quiet, Op.stores]
  · exact Quiet.seq (.append (quiet_retire b 1) (by simp [Quiet, Op.stores])) trivial
  · exact Quiet.seq (by simp [Quiet, Op.stores]) trivial

theorem emitJump_storesLast (t : Word) (opCount : Nat) :
    match emitJump (b.idleWait memory) pcBlock t opCount with
    | .bail => True
    | .stop body => body.storesLast
    | .next _ body => ∀ rest : Code, rest.storesLast → (body rest).storesLast := by
  have jumpOps : Quiet [.safepoint, .setPc (.const t)] := by simp [Quiet, Op.stores]
  unfold emitJump
  dsimp only
  split_ifs
  · exact (jumpOps.append (quiet_idleWait b _ _)).seq trivial
  · exact fun rest last => jumpOps.seq last
  · exact jumpOps.seq trivial

theorem emitOf_storesLast (opCount : Nat) (i : Insn) :
    match emitOf b (b.idleWait memory) pcBlock pc fusedOp opCount i with
    | .bail => True
    | .stop body => body.storesLast
    | .next _ body => ∀ rest : Code, rest.storesLast → (body rest).storesLast := by
  have operand := quiet_operand b
  cases i with
  | jp nnn => exact emitJump_storesLast b memory pcBlock _ opCount
  | skip c =>
    intro rest last
    refine (quiet_skipCond b c).seq ⟨?_, emitFallen_storesLast b memory pcBlock pc fusedOp⟩
    exact Quiet.seq (by simp [Quiet, Op.stores]) last
  | alu o x y => exact fun rest last => (quiet_aluOps b o x y).seq last
  | add x kk => exact fun rest last => ((operand 0 x).append (by simp [Quiet, Op.stores])).seq last
  | addI x | ldF x =>
    exact fun rest last => ((operand 0 x).append (by simp [Quiet, Op.stores])).seq last
  | setDelay x | setSound x =>
    exact fun rest last => (((operand 0 x).append (quiet_syncTimers b)).append
      (by simp [Quiet, Op.stores])).seq last
  | ldDelay x =>
    exact fun rest last => ((quiet_syncTimers b).append (by simp [Quiet, Op.stores])).seq last
  | jpV0 nnn => exact ((operand 0 0#4).append (by simp [Quiet, Op.stores])).seq trivial
  | skipKey x up =>
    cases up <;> exact Quiet.seq (by simp [Quiet, Op.stores, Helper.stores, callHostOp]) trivial
  | bcd x | save x =>
    simp [emitOf, terminal, callHostOp, Jit.seq, Code.storesLast, Op.stores, Helper.stores]
  | ret | call nnn | ldKey x =>
    exact Quiet.seq (by simp [Quiet, Op.stores, Helper.stores, callHostOp]) trivial
  | cls | ld x kk | ldI nnn | rnd x kk | drw x y n | restore x =>
    exact fun rest last =>
      Quiet.seq (by simp [Quiet, Op.stores, Helper.stores, callHostOp]) last

end

theorem closeLoop_storesLast (memory : Memory) (pc : Word) :
    (closeLoop b memory pc).storesLast :=
  Quiet.seq (.append (by simp [Quiet, Op.stores]) (quiet_idleWait b memory pc)) trivial

theorem BlockOf.storesLast {memory : Memory} {a : Word} {code : Code}
    (block : BlockOf b memory a code) : code.storesLast := by
  cases block with
  | @stop pcBlock opCount i body decoded emitted =>
    have last := emitOf_storesLast b memory pcBlock a (opcodeAt memory (a + 2)) opCount i
    rw [emitted] at last
    exact (quiet_prologue b _).seq last
  | @next pcBlock opCount i pc' body rest decoded emitted closing =>
    have last := emitOf_storesLast b memory pcBlock a (opcodeAt memory (a + 2)) opCount i
    rw [emitted] at last
    refine (quiet_prologue b _).seq (last _ ?_)
    rcases closing with rfl | rfl
    · trivial
    · exact closeLoop_storesLast b memory _

end

end Jit
end ChipEight
