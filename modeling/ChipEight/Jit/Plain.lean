import ChipEight.Jit.Dispatcher
import ChipEight.Jit.Traces

/-! Compiling with and without `--elide-idle`.

The generators emit the same but for the calls of `jit_idle_wait`, each of which stands right in
front of a back edge. A compilation without the flag is one with it, less these calls.
-/

set_option autoImplicit false

namespace ChipEight.Jit

/-! ## Code without its waits -/

def Op.waits : Op → Bool
  | .call .idleWait => true
  | _ => false

def Code.plain : Code → Code
  | .op o k => if o.waits then k.plain else .op o k.plain
  | .cond c x y taken fallen => .cond c x y taken.plain fallen.plain
  | .goto pc => .goto pc
  | .backedge t => .backedge t
  | .ret => .ret

def Code.closes : Code → Bool
  | .backedge _ => true
  | _ => false

/-- Nothing but a back edge stands behind a wait. -/
def Code.waitsLast : Code → Bool
  | .op o k => (!o.waits || k.closes) && k.waitsLast
  | .cond _ _ _ taken fallen => taken.waitsLast && fallen.waitsLast
  | _ => true

def plainBlocks (blocks : List (Word × Code)) : List (Word × Code) :=
  blocks.map fun p => (p.1, p.2.plain)

def Outcome.plain : Outcome → Outcome
  | .code rest blocks => .code rest.plain (plainBlocks blocks)
  | o => o

/-- Of two emissions the second is the first one without its waits. -/
inductive PlainEmit : Emit → Emit → Prop
  | bail : PlainEmit .bail .bail
  | stop {k : Code} (last : k.waitsLast = true) : PlainEmit (.stop k) (.stop k.plain)
  | next {pc : Word} {body body' : Code → Code} (same : ∀ k, (body k).plain = body' k.plain)
      (last : ∀ k, k.waitsLast = true → (body k).waitsLast = true) :
      PlainEmit (.next pc body) (.next pc body')

section
variable {ops : List Op}

theorem seq_plain (free : ∀ o ∈ ops, o.waits = false) (k : Code) :
    (seq ops k).plain = seq ops k.plain := by
  induction ops with
  | nil => rfl
  | cons o ops ih =>
    show (if o.waits then (seq ops k).plain else .op o (seq ops k).plain) = _
    rw [free o List.mem_cons_self, ih fun o' later => free o' (List.mem_cons_of_mem o later)]
    rfl

theorem seq_waitsLast (free : ∀ o ∈ ops, o.waits = false) (k : Code) :
    (seq ops k).waitsLast = k.waitsLast := by
  induction ops with
  | nil => rfl
  | cons o ops ih =>
    show ((!o.waits || (seq ops k).closes) && (seq ops k).waitsLast) = _
    rw [free o List.mem_cons_self, ih fun o' later => free o' (List.mem_cons_of_mem o later)]
    rfl

theorem plainEmit_straight {pc : Word} (free : ∀ o ∈ ops, o.waits = false) :
    PlainEmit (Build.straight pc ops) (Build.straight pc ops) :=
  .next (seq_plain free) fun k last => (seq_waitsLast free k).trans last

theorem plainEmit_terminal (free : ∀ o ∈ ops, o.waits = false) :
    PlainEmit (Build.terminal ops) (Build.terminal ops) := by
  have emitted := PlainEmit.stop ((seq_waitsLast free .ret).trans rfl)
  rwa [seq_plain free] at emitted

end

/-! ## What the generators emit -/

section
variable {backend : Backend} {memory : Memory}

theorem operand_free (elides : Bool) (i : Nat) (x : Reg) :
    ∀ o ∈ (Build.operand ⟨backend, false, elides⟩ i x).1, o.waits = false := by
  cases backend with
  | libgccjit => exact fun o none => absurd none List.not_mem_nil
  | llvm =>
    intro o here
    cases List.mem_singleton.mp here
    rfl

theorem free_append {ops more : List Op} (first : ∀ o ∈ ops, o.waits = false)
    (second : ∀ o ∈ more, o.waits = false) : ∀ o ∈ ops ++ more, o.waits = false :=
  fun o here => (List.mem_append.mp here).elim (first o) (second o)

theorem free_one {o : Op} (free : o.waits = false) : ∀ o' ∈ [o], o'.waits = false := by
  intro o' here
  cases List.mem_singleton.mp here
  exact free

/-- A back edge behind the operations in front of it. -/
theorem closed_plain {ops : List Op} (free : ∀ o ∈ ops, o.waits = false) (t : Word) :
    (seq (ops ++ Build.idleWait ⟨backend, false, true⟩ memory t) (.backedge t)).plain =
        seq (ops ++ Build.idleWait ⟨backend, false, false⟩ memory t) (.backedge t) ∧
      (seq (ops ++ Build.idleWait ⟨backend, false, true⟩ memory t) (.backedge t)).waitsLast =
        true := by
  have without : Build.idleWait ⟨backend, false, false⟩ memory t = [] := rfl
  rw [without, List.append_nil]
  unfold Build.idleWait
  split
  · have whole : seq (ops ++ [.call .idleWait]) (.backedge t) =
        seq ops (.op (.call .idleWait) (.backedge t)) := List.foldr_append
    rw [whole, seq_plain free, seq_waitsLast free]
    exact ⟨rfl, rfl⟩
  · rw [List.append_nil, seq_plain free, seq_waitsLast free]
    exact ⟨rfl, rfl⟩

theorem jump_free (t : Word) : ∀ o ∈ [Op.safepoint, .setPc (.const t)], o.waits = false := by
  simp [Op.waits]

variable {pcBlock : List Word} {pc fusedOp : Word}

theorem fallen_plain :
    (Build.emitFallen ⟨backend, false, true⟩ (Build.idleWait ⟨backend, false, true⟩ memory) pcBlock
        pc fusedOp).plain =
        Build.emitFallen ⟨backend, false, false⟩ (Build.idleWait ⟨backend, false, false⟩ memory)
          pcBlock pc fusedOp ∧
      (Build.emitFallen ⟨backend, false, true⟩ (Build.idleWait ⟨backend, false, true⟩ memory)
        pcBlock pc fusedOp).waitsLast = true := by
  unfold Build.emitFallen
  split
  · dsimp only
    split
    · exact closed_plain (jump_free _) _
    · exact ⟨seq_plain (jump_free _) .ret, seq_waitsLast (jump_free _) .ret⟩
  · exact ⟨rfl, rfl⟩

theorem plainEmit_jump (t : Word) (opCount : Nat) :
    PlainEmit (Build.emitJump (Build.idleWait ⟨backend, false, true⟩ memory) pcBlock t opCount)
      (Build.emitJump (Build.idleWait ⟨backend, false, false⟩ memory) pcBlock t opCount) := by
  unfold Build.emitJump
  dsimp only
  split
  · obtain ⟨same, last⟩ := @closed_plain backend memory _ (jump_free t) t
    have emitted := PlainEmit.stop last
    rwa [same] at emitted
  · split
    · exact .next (seq_plain (jump_free t)) fun k last => (seq_waitsLast (jump_free t) k).trans last
    · exact plainEmit_terminal (jump_free t)

theorem skipCond_free (c : SkipCond) :
    ∀ o ∈ (emitSkipCond ⟨backend, false, true⟩ c).2.1, o.waits = false := by
  cases c with
  | eqImm x kk | neImm x kk => exact operand_free true 0 x
  | eqReg x y | neReg x y => exact free_append (operand_free true 0 x) (operand_free true 1 y)

theorem plainEmit_emitOf (opCount : Nat) (i : Insn) :
    PlainEmit
      (emitOf ⟨backend, false, true⟩ (Build.idleWait ⟨backend, false, true⟩ memory) pcBlock pc
        fusedOp opCount i)
      (emitOf ⟨backend, false, false⟩ (Build.idleWait ⟨backend, false, false⟩ memory) pcBlock pc
        fusedOp opCount i) := by
  have loaded (n : Nat) (x : Reg) {o : Op} (free : o.waits = false) :=
    free_append (@operand_free backend true n x) (free_one free)
  have called {h : Helper} (other : h ≠ .idleWait) :
      ∀ o ∈ Build.callHostOp pc h, o.waits = false := by
    cases h <;> first | exact absurd rfl other | simp [Build.callHostOp, Op.waits]
  -- Only a jump and the folded edge of a skip have back edges, and so waits.
  cases i with
  | cls => exact plainEmit_straight (free_one rfl)
  | ret => exact plainEmit_terminal (free_one rfl)
  | jp nnn => exact plainEmit_jump _ opCount
  | call nnn => exact plainEmit_terminal (called Helper.noConfusion)
  | skip c =>
    obtain ⟨same, last⟩ := @fallen_plain backend memory pcBlock pc fusedOp
    have free := @skipCond_free backend c
    refine .next (fun k => ?_) fun k taken => ?_
    · refine (seq_plain free _).trans ?_
      rw [Code.plain, same]
      cases c <;> rfl
    · refine (seq_waitsLast free _).trans ?_
      rw [Code.waitsLast, last, Bool.and_true]
      exact taken
  | ld x kk => exact plainEmit_straight (free_one rfl)
  | add x kk => exact plainEmit_straight (loaded 0 x rfl)
  | alu o x y =>
    refine plainEmit_straight ?_
    cases o <;> cases backend <;> simp [aluOps, Build.emitAlu, aluLow, Build.emitBinary,
      Build.operand, Op.waits]
  | ldI nnn => exact plainEmit_straight (free_one rfl)
  | jpV0 nnn => exact plainEmit_terminal (loaded 0 0#4 rfl)
  | rnd x kk => exact plainEmit_straight (called Helper.noConfusion)
  | drw x y n => exact plainEmit_straight (called Helper.noConfusion)
  | skipKey x up =>
    cases up with
    | true => exact plainEmit_terminal (called Helper.noConfusion)
    | false => exact plainEmit_terminal (called Helper.noConfusion)
  | ldDelay x => exact plainEmit_straight (free_one rfl)
  | ldKey x => exact plainEmit_terminal (called Helper.noConfusion)
  | setDelay x =>
    exact plainEmit_straight (free_append (free_append (operand_free true 0 x)
      fun o none => absurd none List.not_mem_nil) (free_one rfl))
  | setSound x =>
    exact plainEmit_straight (free_append (free_append (operand_free true 0 x)
      fun o none => absurd none List.not_mem_nil) (free_one rfl))
  | addI x => exact plainEmit_straight (loaded 0 x rfl)
  | ldF x => exact plainEmit_straight (loaded 0 x rfl)
  | bcd x => exact plainEmit_terminal (called Helper.noConfusion)
  | save x => exact plainEmit_terminal (called Helper.noConfusion)
  | restore x => exact plainEmit_straight (called Helper.noConfusion)

theorem prologue_free (elides : Bool) (i : Nat) :
    ∀ o ∈ prologue ⟨backend, false, elides⟩ i, o.waits = false := by
  unfold prologue
  refine free_append ?_ fun o none => absurd none List.not_mem_nil
  split
  · exact free_one rfl
  · exact fun o none => absurd none List.not_mem_nil

/-! ## Compilations -/

/-- Every block of an outcome has its waits in front of a back edge. -/
def Outcome.WaitsLast : Outcome → Prop
  | .code rest blocks => rest.waitsLast = true ∧ ∀ p ∈ blocks, p.2.waitsLast = true
  | _ => True

theorem Outcome.prepend_plain {pc : Word} {body body' : Code → Code} {o : Outcome}
    (same : ∀ k, (body k).plain = body' k.plain) :
    (o.prepend pc body).plain = o.plain.prepend pc body' := by
  cases o with
  | bail => rfl
  | outOfFuel => rfl
  | code rest blocks =>
    show Outcome.code (.goto pc) ((pc, (body rest).plain) :: plainBlocks blocks) = _
    rw [same]
    rfl

theorem Outcome.WaitsLast.prepend {pc : Word} {body : Code → Code} {o : Outcome}
    (lasts : o.WaitsLast) (last : ∀ k, k.waitsLast = true → (body k).waitsLast = true) :
    (o.prepend pc body).WaitsLast := by
  cases o with
  | bail => trivial
  | outOfFuel => trivial
  | code rest blocks => exact ⟨rfl, List.forall_mem_cons.mpr ⟨last rest lasts.1, lasts.2⟩⟩

theorem codegenLoop_plain (fuel : Nat) (pc : Word) (opCount : Nat) (emitted : List Word) :
    codegenLoop ⟨backend, false, false⟩ memory fuel pc opCount emitted =
        { codegenLoop ⟨backend, false, true⟩ memory fuel pc opCount emitted with
          outcome := (codegenLoop ⟨backend, false, true⟩ memory fuel pc opCount
            emitted).outcome.plain } ∧
      (codegenLoop ⟨backend, false, true⟩ memory fuel pc opCount emitted).outcome.WaitsLast := by
  induction fuel generalizing pc opCount emitted with
  | zero => exact ⟨rfl, trivial⟩
  | succ fuel ih =>
    -- `pc_block` is the same in both, so both close the same loops.
    by_cases again : pc ∈ emitted
    · obtain ⟨same, last⟩ := @closed_plain backend memory _ (jump_free pc) pc
      rw [codegenLoop, codegenLoop, if_pos again, if_pos again]
      refine ⟨?_, last, fun p none => absurd none List.not_mem_nil⟩
      have same : closeLoop ⟨backend, false, false⟩ memory pc =
          (closeLoop ⟨backend, false, true⟩ memory pc).plain := same.symm
      rw [same]
      rfl
    · rw [codegenLoop, codegenLoop, if_neg again, if_neg again]
      simp only [emitInsn_eq]
      cases decode (opcodeAt memory pc) with
      | none => exact ⟨rfl, trivial⟩
      | some i =>
        dsimp only
        have emission := @plainEmit_emitOf backend memory (pc :: emitted) pc
          (opcodeAt memory (pc + 2)) opCount i
        have enters (k : Code) := seq_plain (@prologue_free backend true opCount) k
        have entered (k : Code) := seq_waitsLast (@prologue_free backend true opCount) k
        -- What is emitted is only seen through its relation from here on.
        generalize emitOf ⟨backend, false, true⟩ _ _ _ _ _ _ = emit at emission ⊢
        generalize emitOf ⟨backend, false, false⟩ _ _ _ _ _ _ = emit' at emission ⊢
        cases emission with
        | bail => exact ⟨rfl, trivial⟩
        | @stop body last =>
          refine ⟨?_, rfl, ?_⟩
          · show _ = Compilation.mk _ _ _ (.code (.goto pc) [(pc, Code.plain _)])
            rw [enters]
            rfl
          · exact List.forall_mem_singleton.mpr ((entered body).trans last)
        | @next pc' body body' same last =>
          obtain ⟨later, lasts⟩ := ih pc' (opCount + 1) (pc :: emitted)
          refine ⟨?_, lasts.prepend fun k inner => (entered _).trans (last k inner)⟩
          dsimp only
          rw [later]
          dsimp only
          have whole (k : Code) := (enters (body k)).trans
            (congrArg (seq (prologue ⟨backend, false, true⟩ opCount)) (same k))
          rw [@Outcome.prepend_plain pc _ (fun k => seq (prologue ⟨backend, false, true⟩ opCount)
            (body' k)) _ whole]
          rfl

/-- The compilation without the flag is the one with it, without the waits. -/
theorem codegen_plain (pc : Word) :
    codegen ⟨backend, false, false⟩ memory pc =
      { codegen ⟨backend, false, true⟩ memory pc with
        outcome := (codegen ⟨backend, false, true⟩ memory pc).outcome.plain } :=
  (codegenLoop_plain _ pc 0 []).1

theorem codegen_waitsLast {pc : Word} {rest : Code} {blocks : List (Word × Code)}
    (made : (codegen ⟨backend, false, true⟩ memory pc).outcome = .code rest blocks) :
    ∀ p ∈ blocks, p.2.waitsLast = true := by
  have lasts := (@codegenLoop_plain backend memory (2 ^ 16 + 1) pc 0 []).2
  rw [show (codegenLoop _ _ _ _ _ _).outcome = _ from made] at lasts
  exact lasts.2

end

/-! ## Dispatchers -/

def Trace.plain (t : Trace) : Trace := { t with blocks := plainBlocks t.blocks }

theorem plain_block (t : Trace) (pc : Word) : t.plain.block pc = (t.block pc).map Code.plain := by
  unfold Trace.block Trace.plain plainBlocks
  generalize t.blocks = blocks
  induction blocks with
  | nil => rfl
  | cons p blocks ih =>
    rw [List.map_cons, List.lookup_cons, List.lookup_cons]
    split
    · rfl
    · exact ih

def Position.plain : Position → Position
  | .running t pc => .running t.plain pc
  | .backedge t pc => .backedge t.plain pc
  | .top => .top
  | .returned => .returned
  | .stopped why => .stopped why

theorem plain_leave (t : Trace) (exit : Exit) :
    (Dispatcher.leave t exit).plain = Dispatcher.leave t.plain exit := by
  cases exit <;> rfl

end ChipEight.Jit
