import ChipEight.Jit.Dispatcher
import ChipEight.Jit.Traces
import ChipEight.Library.Walk
import Mathlib.Data.List.Rotate
import Mathlib.Data.Prod.Lex

/-! Where the native code of a trace looks for input and for the end.

The blocks of a trace are numbered in the order they were emitted, which is the order of
`op_count`. A walk goes through them as native code might, whatever the registers hold;
next to the operations it passes the places where `RETIRE` stands in the generators, in
builds without `BENCH` too.
-/

set_option autoImplicit false

namespace ChipEight.Jit

/-! ## Walks through a trace -/

inductive Event where
  | op (o : Op)
  /-- One more instruction of the program. -/
  | retired
  /-- The test of `CLOSE_BACKEDGE`, and whether `program_over` was found set. -/
  | test (t : Word) (found : Bool)
  | branch

inductive Point where
  /-- In front of an instruction, with what is left of its prologue. -/
  | entering (i : Nat) (ops : List Op)
  | inside (i : Nat) (k : Code)
  | returned

section
variable (b : Build) (memory : Memory) (blocks : List (Word × Code))

/-- Whether a skip has a jump behind it, which its edge not taken stands for. -/
def folds (a : Word) : Bool := opClass (opcodeAt memory (a + 2)) == 0x1

inductive Moves : Point → Event → Point → Prop where
  | prologue {i : Nat} {o : Op} {ops : List Op} :
      Moves (.entering i (o :: ops)) (.op o) (.entering i ops)
  | retire {i : Nat} {a : Word} {body : Code}
      (here : blocks[i]? = some (a, seq (prologue b i) body)) :
      Moves (.entering i []) .retired (.inside i body)
  | op {i : Nat} {o : Op} {k : Code} : Moves (.inside i (.op o k)) (.op o) (.inside i k)
  | taken {i : Nat} {c : Comparison} {x y : Value 8} {taken fallen : Code} :
      Moves (.inside i (.cond c x y taken fallen)) .branch (.inside i taken)
  | folded {i : Nat} {a : Word} {code : Code} {c : Comparison} {x y : Value 8}
      {taken fallen : Code} (here : blocks[i]? = some (a, code)) (jump : folds memory a = true) :
      Moves (.inside i (.cond c x y taken fallen)) .retired (.inside i fallen)
  | fallen {i : Nat} {a : Word} {code : Code} {c : Comparison} {x y : Value 8}
      {taken fallen : Code} (here : blocks[i]? = some (a, code)) (other : folds memory a = false) :
      Moves (.inside i (.cond c x y taken fallen)) .branch (.inside i fallen)
  | goto {i j : Nat} {a : Word} {code : Code} (there : blocks[j]? = some (a, code)) :
      Moves (.inside i (.goto a)) .branch (.entering j (prologue b j))
  | exit {i : Nat} {t : Word} : Moves (.inside i (.backedge t)) (.test t true) .returned
  | again {i j : Nat} {t : Word} {code : Code} (there : blocks[j]? = some (t, code)) :
      Moves (.inside i (.backedge t)) (.test t false) (.entering j (prologue b j))
  | ret {i : Nat} : Moves (.inside i .ret) .branch .returned

/-- Where a trace is entered. -/
def Point.entry : Point := .entering 0 (prologue b 0)

end

def Event.retires : Event → Nat
  | .retired => 1
  | _ => 0

/-- The instructions retired on a walk. -/
def retiredIn (es : List Event) : Nat := (es.map Event.retires).sum

/-- The instructions retired since the last safepoint of a walk, or since it began. -/
def sinceSafepoint (es : List Event) : Nat :=
  es.foldl (fun n e => match e with
    | .op .safepoint => 0
    | e => n + e.retires) 0

/-- What stands between the safepoint of a back edge and its test. -/
def Closes (t : Word) (ops : List Op) : Prop :=
  ops = [.setPc (.const t)] ∨ ops = [.setPc (.const t), .call .idleWait]

/-- The point of a trace at which the dispatcher stands. -/
def Stands (b : Build) (trace : Trace) : Position → Point → Prop
  | .running t a, p => t = trace ∧ ∃ i code, trace.blocks[i]? = some (a, code) ∧
      p = .entering i (prologue b i)
  | .backedge t a, p => t = trace ∧ ∃ i, p = .inside i (.backedge a) ∧
      ∃ j : Nat, ∃ code : Code, trace.blocks[j]? = some (a, code)
  | .returned, p => p = .returned
  | _, _ => False

/-- What is known of the native code of a trace. -/
structure Covered (b : Build) (memory : Memory) (trace : Trace) : Prop where
  /-- Inside the trace the dispatcher goes the way of a walk. -/
  followed : ∀ {E : Type} (P : Host E) (d d' : Dispatcher E) (p : Point),
    Stands b trace d.position p → p ≠ .returned → d.step P b = some d' →
      d'.position = .stopped .errer ∨
        ∃ es q, Walk (Moves b memory trace.blocks) p es q ∧ Stands b trace d'.position q
  /-- On every cycle a back edge is taken, right behind a safepoint and the test of
  `program_over`. -/
  cycles : ∀ es p cs, Walk (Moves b memory trace.blocks) (.entry b) es p →
    Walk (Moves b memory trace.blocks) p cs p → cs ≠ [] →
    ∃ t ops round, Closes t ops ∧ List.IsRotated cs round ∧
      (.safepoint :: ops).map Event.op ++ [.test t false] <:+ round
  /-- Where the test finds it set the trace returns, with the target of the back edge. -/
  exits : ∀ {E : Type} (P : Host E) (d d₁ d₂ : Dispatcher E) (a t : Word),
    d.position = .running trace a → d.step P b = some d₁ → d₁.position = .backedge trace t →
    P.programOver d₁.machine.env = true → d₁.step P b = some d₂ →
      d₂.position = .returned ∧ d₂.machine.vm.programCounter = t
  /-- One interval, and a jump folded into its last skip. -/
  bounded : ∀ es p, Walk (Moves b memory trace.blocks) (.entry b) es p →
    sinceSafepoint es ≤ safepointInterval + 1
  /-- Where no test lets it go on, the trace does not retire more than its instructions and
  a folded jump, and comes to its end. -/
  returns : ∀ es p, Walk (Moves b memory trace.blocks) (.entry b) es p →
    (∀ fs q, Walk (Moves b memory trace.blocks) p fs q → (∀ t, .test t false ∉ fs) →
      retiredIn fs ≤ trace.blocks.length + 1 ∧
        (q ≠ .returned → ∃ e r, Moves b memory trace.blocks q e r ∧ ∀ t, e ≠ .test t false)) ∧
    ∀ (point : Nat → Point) (event : Nat → Event), point 0 = p →
      (∀ n, Moves b memory trace.blocks (point n) (event n) (point (n + 1))) →
      ∃ n t, event n = .test t false

/-! ## The shape of the blocks -/

/-- Control may stay in the trace without a back edge. -/
def Code.goesOn : Code → Bool
  | .op _ k => k.goesOn
  | .cond _ _ _ _ _ => true
  | .goto _ => true
  | .backedge _ => false
  | .ret => false

/-- What remains of block `i` is well made, `recent` being the operations in front of it:
control goes on to the next block or through a guarded back edge. -/
def WellMade (blocks : List (Word × Code)) (i : Nat) : List Op → Code → Prop
  | recent, .op o k => WellMade blocks i (recent ++ [o]) k
  | _, .cond _ _ _ taken fallen =>
    WellMade blocks i [] taken ∧ WellMade blocks i [] fallen ∧ fallen.goesOn = false
  | _, .goto a => ∃ code : Code, blocks[i + 1]? = some (a, code)
  | recent, .backedge t =>
    (∃ ops, Closes t ops ∧ .safepoint :: ops <:+ recent) ∧ ∃ j : Nat, ∃ code : Code, blocks[j]? = some (t, code)
  | _, .ret => True

/-- The blocks of a trace. -/
structure Laid (b : Build) (blocks : List (Word × Code)) : Prop where
  distinct : (blocks.map Prod.fst).Nodup
  built : ∀ i a code, blocks[i]? = some (a, code) →
    ∃ body, code = seq (prologue b i) body ∧ WellMade blocks i [] body

@[simp] theorem seq_goesOn (ops : List Op) (k : Code) : (seq ops k).goesOn = k.goesOn := by
  induction ops with
  | nil => rfl
  | cons o ops ih => exact ih

theorem seq_injective (ops : List Op) {k k' : Code} (same : seq ops k = seq ops k') : k = k' := by
  induction ops with
  | nil => exact same
  | cons o ops ih => exact ih (Code.op.inj same).2

section
variable {blocks : List (Word × Code)} {i : Nat} {recent : List Op} {k : Code}

theorem wellMade_seq (ops : List Op) :
    WellMade blocks i recent (seq ops k) ↔ WellMade blocks i (recent ++ ops) k := by
  induction ops generalizing recent with
  | nil =>
    rw [List.append_nil]
    rfl
  | cons o ops ih =>
    rw [← List.singleton_append, ← List.append_assoc]
    exact ih

theorem WellMade.more (made : WellMade blocks i recent k) (before : List Op) :
    WellMade blocks i (before ++ recent) k := by
  induction k generalizing recent with
  | op o k ih =>
    rw [WellMade, List.append_assoc]
    exact ih made
  | cond c x y taken fallen _ _ => exact made
  | goto a => exact made
  | backedge t =>
    obtain ⟨⟨ops, closes, behind⟩, inside⟩ := made
    exact ⟨⟨ops, closes, behind.trans (List.suffix_append _ _)⟩, inside⟩
  | ret => exact made

theorem WellMade.behind (made : WellMade blocks i [] k) (ops : List Op) :
    WellMade blocks i recent (seq ops k) := by
  rw [wellMade_seq]
  have more := made.more (recent ++ ops)
  rwa [List.append_nil] at more

end

/-! ## The shape of what is emitted -/

section
variable {b : Build} {memory : Memory} {blocks : List (Word × Code)} {i : Nat}

open Build

theorem closes_idleWait (t : Word) : Closes t (.setPc (.const t) :: b.idleWait memory t) := by
  unfold Closes Build.idleWait
  split
  · exact .inr rfl
  · exact .inl rfl

theorem wellMade_backedge {recent : List Op} {t : Word}
    (known : ∃ j : Nat, ∃ code : Code, blocks[j]? = some (t, code)) :
    WellMade blocks i recent
      (seq (.safepoint :: .setPc (.const t) :: b.idleWait memory t) (.backedge t)) := by
  rw [wellMade_seq]
  exact ⟨⟨_, closes_idleWait t, List.suffix_append _ _⟩, known⟩

variable {pcBlock : List Word} {pc fusedOp : Word}

theorem fallen_wellMade
    (known : ∀ t ∈ pcBlock, ∃ j : Nat, ∃ code : Code, blocks[j]? = some (t, code)) :
    WellMade blocks i [] (b.emitFallen (b.idleWait memory) pcBlock pc fusedOp) ∧
      (b.emitFallen (b.idleWait memory) pcBlock pc fusedOp).goesOn = false := by
  unfold emitFallen
  split
  · dsimp only
    split
    · rename_i old
      constructor
      · rw [List.append_assoc, wellMade_seq, List.nil_append]
        exact ⟨⟨_, closes_idleWait _, List.suffix_append _ _⟩, known _ old⟩
      · exact seq_goesOn _ _
    · exact ⟨(wellMade_seq _).mpr True.intro, seq_goesOn _ _⟩
  · exact ⟨(wellMade_seq _).mpr True.intro, seq_goesOn _ _⟩

theorem stop_wellMade
    (known : ∀ t ∈ pcBlock, ∃ j : Nat, ∃ code : Code, blocks[j]? = some (t, code))
    {opCount : Nat} {insn : Insn} {body : Code}
    (emitted : emitOf b (b.idleWait memory) pcBlock pc fusedOp opCount insn = .stop body) :
    WellMade blocks i [] body := by
  cases insn with
  | jp nnn =>
    simp only [emitOf, emitJump, terminal] at emitted
    split at emitted
    · rename_i old
      cases emitted
      exact wellMade_backedge (known _ old)
    · split at emitted
      · cases emitted
      · cases emitted
        exact (wellMade_seq _).mpr True.intro
  | _ =>
    simp only [emitOf, straight, terminal, emitSkip, reduceCtorEq, Emit.stop.injEq] at emitted
    try subst emitted
    try exact (wellMade_seq _).mpr True.intro

theorem next_wellMade
    (known : ∀ t ∈ pcBlock, ∃ j : Nat, ∃ code : Code, blocks[j]? = some (t, code))
    {opCount : Nat} {insn : Insn} {pc' : Word} {body : Code → Code}
    (emitted : emitOf b (b.idleWait memory) pcBlock pc fusedOp opCount insn = .next pc' body)
    {rest : Code} (made : WellMade blocks i [] rest) : WellMade blocks i [] (body rest) := by
  cases insn with
  | jp nnn =>
    simp only [emitOf, emitJump, terminal] at emitted
    split at emitted
    · cases emitted
    · split at emitted
      · cases emitted
        exact made.behind _
      · cases emitted
  | skip c =>
    cases emitted
    obtain ⟨fallen, leaves⟩ := @fallen_wellMade b memory blocks i pcBlock pc fusedOp known
    exact (wellMade_seq _).mpr ⟨made.behind _, fallen, leaves⟩
  | _ =>
    simp only [emitOf, straight, terminal, reduceCtorEq, Emit.next.injEq] at emitted
    try
      obtain ⟨-, rfl⟩ := emitted
      exact made.behind _

theorem codegenLoop_laid {fuel : Nat} {pc : Word} {opCount : Nat} {emitted : List Word}
    {rest : Code} {done blocks : List (Word × Code)}
    (made : (codegenLoop b memory fuel pc opCount emitted).outcome = .code rest blocks)
    (count : done.length = opCount) (same : ∀ t, t ∈ emitted ↔ t ∈ done.map Prod.fst)
    (distinct : (done.map Prod.fst).Nodup) :
    ((done ++ blocks).map Prod.fst).Nodup ∧
      (∀ i a code, blocks[i]? = some (a, code) → ∃ body,
        code = seq (prologue b (opCount + i)) body ∧
          WellMade (done ++ blocks) (opCount + i) [] body) ∧
      ((rest = .goto pc ∧ ∃ code, blocks[0]? = some (pc, code)) ∨
        rest = closeLoop b memory pc ∧ pc ∈ emitted) := by
  induction fuel generalizing pc opCount emitted rest done blocks with
  | zero => cases made
  | succ fuel ih =>
    rw [codegenLoop] at made
    by_cases again : pc ∈ emitted
    · rw [if_pos again] at made
      cases made
      rw [List.append_nil]
      refine ⟨distinct, ?_, .inr ⟨rfl, again⟩⟩
      intro i a code here
      cases here
    rw [if_neg again, emitInsn_eq] at made
    -- The block of this pass is the next one laid.
    have distinct' (code : Code) : ((done ++ [(pc, code)]).map Prod.fst).Nodup := by
      rw [List.map_append, List.map_singleton, List.nodup_append]
      refine ⟨distinct, List.nodup_singleton _, ?_⟩
      intro t old t' new
      obtain rfl := List.mem_singleton.mp new
      rintro rfl
      exact again ((same t).mpr old)
    have known (code : Code) (later : List (Word × Code)) :
        ∀ t ∈ pc :: emitted, ∃ j : Nat, ∃ code' : Code,
          (done ++ (pc, code) :: later)[j]? = some (t, code') := by
      intro t old
      have there : t ∈ (done ++ (pc, code) :: later).map Prod.fst := by
        rw [List.map_append, List.map_cons, List.mem_append, List.mem_cons]
        obtain rfl | old := List.mem_cons.mp old
        · exact .inr (.inl rfl)
        · exact .inl ((same t).mp old)
      obtain ⟨⟨t, code'⟩, inside, rfl⟩ := List.mem_map.mp there
      obtain ⟨j, at_⟩ := List.getElem?_of_mem inside
      exact ⟨j, code', at_⟩
    cases decoded : decode (opcodeAt memory pc) with
    | none =>
      rw [decoded] at made
      cases made
    | some insn =>
      rw [decoded] at made
      dsimp only at made
      cases emission : emitOf b (b.idleWait memory) (pc :: emitted) pc
          (opcodeAt memory (pc + 2)) opCount insn with
      | bail =>
        rw [emission] at made
        cases made
      | stop body =>
        rw [emission] at made
        cases made
        refine ⟨distinct' _, ?_, .inl ⟨rfl, _, rfl⟩⟩
        intro i a code here
        cases i with
        | zero =>
          cases here
          exact ⟨body, rfl, stop_wellMade (known _ []) emission⟩
        | succ i => cases here
      | next pc' body =>
        rw [emission] at made
        obtain ⟨rest', blocks', inner, rfl, rfl⟩ := prepend_code made
        have whole (code : Code) : done ++ [(pc, code)] ++ blocks' = done ++ (pc, code) :: blocks' := by
          rw [List.append_assoc, List.singleton_append]
        obtain ⟨laid, built, entry⟩ := @ih pc' (opCount + 1) (pc :: emitted) rest'
          (done ++ [(pc, seq (prologue b opCount) (body rest'))]) blocks' inner
          (by rw [List.length_append, count]; rfl)
          (by
            intro t
            rw [List.map_append, List.map_singleton, List.mem_append, List.mem_cons,
              List.mem_singleton, same t]
            exact or_comm)
          (distinct' _)
        rw [whole] at laid built
        have goesTo : WellMade (done ++ (pc, seq (prologue b opCount) (body rest')) :: blocks')
            opCount [] rest' := by
          obtain ⟨rfl, code, first⟩ | ⟨rfl, old⟩ := entry
          · refine ⟨code, ?_⟩
            rw [← count, List.getElem?_append_right (Nat.le_add_right _ 1), Nat.add_sub_cancel_left]
            exact first
          · exact wellMade_backedge (known _ _ _ old)
        refine ⟨laid, ?_, .inl ⟨rfl, _, rfl⟩⟩
        intro i a code here
        cases i with
        | zero =>
          cases here
          exact ⟨body rest', rfl, next_wellMade (known _ _) emission goesTo⟩
        | succ i =>
          rw [← Nat.succ_add_eq_add_succ]
          exact built i a code here

theorem codegen_laid {pc : Word} {rest : Code} {blocks : List (Word × Code)}
    (made : (codegen b memory pc).outcome = .code rest blocks) :
    Laid b blocks ∧ 0 < blocks.length := by
  obtain ⟨distinct, built, entry⟩ :=
    @codegenLoop_laid b memory _ pc 0 [] rest [] blocks made rfl (fun _ => Iff.rfl) List.nodup_nil
  rw [List.nil_append] at distinct built
  refine ⟨⟨distinct, ?_⟩, ?_⟩
  · intro i a code here
    have block := built i a code here
    rwa [Nat.zero_add] at block
  · obtain ⟨-, code, first⟩ | ⟨-, old⟩ := entry
    · exact (List.getElem?_eq_some_iff.mp first).1
    · cases old

end

/-! ## Along a walk -/

theorem since_op (es : List Event) (o : Op) :
    sinceSafepoint (es ++ [.op o]) = 0 ∨
      sinceSafepoint (es ++ [.op o]) = sinceSafepoint es ∧ o ≠ .safepoint := by
  unfold sinceSafepoint
  rw [List.foldl_append]
  cases o with
  | safepoint => exact .inl rfl
  | _ => exact .inr ⟨rfl, nofun⟩

theorem since_retired (es : List Event) :
    sinceSafepoint (es ++ [.retired]) = sinceSafepoint es + 1 := by
  unfold sinceSafepoint
  rw [List.foldl_append]
  rfl

theorem since_branch (es : List Event) :
    sinceSafepoint (es ++ [.branch]) = sinceSafepoint es := by
  unfold sinceSafepoint
  rw [List.foldl_append]
  rfl

theorem since_test (es : List Event) (t : Word) (found : Bool) :
    sinceSafepoint (es ++ [.test t found]) = sinceSafepoint es := by
  unfold sinceSafepoint
  rw [List.foldl_append]
  rfl

theorem since_behind {es : List Event} {ops : List Op}
    (behind : (Op.safepoint :: ops).map Event.op <:+ es) : sinceSafepoint es = 0 := by
  obtain ⟨before, rfl⟩ := behind
  induction ops using List.reverseRecOn with
  | nil =>
    unfold sinceSafepoint
    rw [List.foldl_append]
    rfl
  | append_singleton ops o ih =>
    rw [← List.cons_append, List.map_append, ← List.append_assoc, List.map_singleton]
    obtain zero | ⟨same, -⟩ := since_op (before ++ (Op.safepoint :: ops).map Event.op) o
    · exact zero
    · rw [same]
      exact ih

section
variable {b : Build} {memory : Memory} {blocks : List (Word × Code)}

/-- What is known at a point of a walk from the beginning of a block. -/
def Sound (b : Build) (blocks : List (Word × Code)) (es : List Event) : Point → Prop
  | .entering i ops => i < blocks.length ∧ ops <:+ prologue b i ∧ sinceSafepoint es ≤ 32 ∧
      (.safepoint ∉ ops → sinceSafepoint es ≤ i % 32)
  | .inside i k => i < blocks.length ∧
      (∃ recent, WellMade blocks i recent k ∧ recent.map Event.op <:+ es) ∧
      sinceSafepoint es ≤ i % 32 + (if k.goesOn then 1 else 2)
  | .returned => sinceSafepoint es ≤ 33

theorem prologue_quiet {i : Nat} (quiet : .safepoint ∉ prologue b i) : i = 0 ∨ i % 32 ≠ 0 := by
  by_contra both
  rw [not_or, not_not] at both
  apply quiet
  rw [prologue, if_pos ⟨both.1, both.2⟩]
  exact List.mem_cons_self

theorem Sound.entering {es : List Event} {j : Nat} (inside : j < blocks.length)
    (few : sinceSafepoint es ≤ 32)
    (none : j = 0 ∨ j % 32 ≠ 0 → sinceSafepoint es ≤ j % 32) :
    Sound b blocks es (.entering j (prologue b j)) :=
  ⟨inside, List.suffix_refl _, few, fun quiet => none (prologue_quiet quiet)⟩

theorem unique_index (distinct : (blocks.map Prod.fst).Nodup) {i j : Nat} {a : Word}
    {code code' : Code} (here : blocks[i]? = some (a, code)) (there : blocks[j]? = some (a, code')) :
    i = j := by
  have first : (blocks.map Prod.fst)[i]? = some a := by
    rw [List.getElem?_map, here]
    rfl
  have second : (blocks.map Prod.fst)[j]? = some a := by
    rw [List.getElem?_map, there]
    rfl
  have inside := (List.getElem?_eq_some_iff.mp first).1
  exact (List.getElem?_inj inside distinct).mp (first.trans second.symm)

theorem sound_moves (laid : Laid b blocks) (es : List Event) (p : Point) (e : Event) (q : Point)
    (sound : Sound b blocks es p) (move : Moves b memory blocks p e q) :
    Sound b blocks (es ++ [e]) q := by
  cases move with
  | @prologue i o ops =>
    obtain ⟨inside, suffix, few, quiet⟩ := sound
    have rest : ops <:+ prologue b i := (List.suffix_cons o ops).trans suffix
    -- A safepoint sets the count back, and any other operation leaves it.
    obtain zero | ⟨same, other⟩ := since_op es o
    · refine ⟨inside, rest, ?_, fun _ => ?_⟩
      · omega
      · omega
    · rw [Sound, same]
      refine ⟨inside, rest, few, fun none => quiet fun here => ?_⟩
      obtain first | later := List.mem_cons.mp here
      · exact other first.symm
      · exact none later
  | @retire i a body here =>
    obtain ⟨inside, -, -, quiet⟩ := sound
    obtain ⟨body', same, made⟩ := laid.built i a _ here
    obtain rfl := seq_injective _ same
    refine ⟨inside, ⟨[], made, List.nil_suffix⟩, ?_⟩
    rw [since_retired]
    have few := quiet List.not_mem_nil
    split <;> omega
  | @op i o k =>
    obtain ⟨inside, ⟨recent, made, behind⟩, few⟩ := sound
    refine ⟨inside, ⟨recent ++ [o], made, ?_⟩, ?_⟩
    · rw [List.map_append]
      exact List.suffix_append_inj_of_length_eq rfl |>.mpr ⟨behind, rfl⟩
    · obtain zero | ⟨same, -⟩ := since_op es o
      · omega
      · rw [same]
        exact few
  | taken =>
    obtain ⟨inside, ⟨recent, ⟨made, -⟩, -⟩, few⟩ := sound
    refine ⟨inside, ⟨[], made, List.nil_suffix⟩, ?_⟩
    rw [since_branch]
    simp only [Code.goesOn, if_true] at few
    split <;> omega
  | folded here jump =>
    obtain ⟨inside, ⟨recent, ⟨-, made, leaves⟩, -⟩, few⟩ := sound
    refine ⟨inside, ⟨[], made, List.nil_suffix⟩, ?_⟩
    simp only [Code.goesOn, if_true] at few
    rw [leaves, if_neg Bool.false_ne_true, since_retired]
    omega
  | fallen here other =>
    obtain ⟨inside, ⟨recent, ⟨-, made, leaves⟩, -⟩, few⟩ := sound
    refine ⟨inside, ⟨[], made, List.nil_suffix⟩, ?_⟩
    simp only [Code.goesOn, if_true] at few
    rw [leaves, if_neg Bool.false_ne_true, since_branch]
    omega
  | @goto i j a code there =>
    obtain ⟨inside, ⟨recent, ⟨code', next⟩, -⟩, few⟩ := sound
    obtain rfl := unique_index laid.distinct next there
    simp only [Code.goesOn, if_true] at few
    apply Sound.entering (List.getElem?_eq_some_iff.mp next).1
    · rw [since_branch]
      omega
    · intro none
      rw [since_branch]
      omega
  | exit =>
    obtain ⟨inside, -, few⟩ := sound
    rw [Sound, since_test]
    split at few <;> omega
  | @again i j t code there =>
    -- A back edge stands behind a safepoint of its own, and nothing is counted between.
    obtain ⟨inside, ⟨recent, ⟨⟨ops, -, behind⟩, -⟩, passed⟩, -⟩ := sound
    have zero : sinceSafepoint es = 0 := by
      obtain ⟨before, rfl⟩ := behind
      rw [List.map_append] at passed
      exact since_behind ((List.suffix_append _ _).trans passed)
    apply Sound.entering (List.getElem?_eq_some_iff.mp there).1
    · rw [since_test, zero]
      omega
    · intro _
      rw [since_test, zero]
      exact Nat.zero_le _
  | ret =>
    obtain ⟨inside, -, few⟩ := sound
    rw [Sound, since_branch]
    split at few <;> omega

/-! ## Without back edges -/

/-- All labels but that of a back edge taken. -/
def Event.Leaves (e : Event) : Prop := ∀ t, e ≠ .test t false

/-- The most a walk still retires that takes no back edge, in a trace of `n` blocks. -/
def Point.left (n : Nat) : Point → Nat
  | .entering i _ => n - i + 1
  | .inside i k => n - i - 1 + k.goesOn.toNat
  | .returned => 0

def Code.size : Code → Nat
  | .op _ k => k.size + 1
  | .cond _ _ _ taken fallen => taken.size + fallen.size + 1
  | .goto _ => 0
  | .backedge _ => 0
  | .ret => 0

/-- Blocks are left in order, and each ends. -/
def Point.rank (n : Nat) : Point → Nat ×ₗ Nat ×ₗ Nat
  | .entering i ops => toLex (n - i, toLex (1, ops.length))
  | .inside i k => toLex (n - i, toLex (0, k.size))
  | .returned => toLex (0, toLex (0, 0))

theorem left_moves (laid : Laid b blocks) {es : List Event} {p q : Point} {e : Event}
    (sound : Sound b blocks es p) (move : Moves b memory blocks p e q) (leaves : e.Leaves) :
    e.retires + q.left blocks.length ≤ p.left blocks.length := by
  cases move with
  | prologue => exact (Nat.zero_add _).le
  | @retire i a body here =>
    have inside := sound.1
    have few := Bool.toNat_le body.goesOn
    simp only [Event.retires, Point.left]
    omega
  | op => exact (Nat.zero_add _).le
  | @taken i c x y taken fallen =>
    have few := Bool.toNat_le taken.goesOn
    simp only [Event.retires, Point.left, Code.goesOn, Bool.toNat_true]
    omega
  | folded here jump =>
    obtain ⟨-, ⟨recent, ⟨-, -, ends⟩, -⟩, -⟩ := sound
    simp only [Event.retires, Point.left, ends, Code.goesOn, Bool.toNat_true, Bool.toNat_false]
    omega
  | fallen here other =>
    obtain ⟨-, ⟨recent, ⟨-, -, ends⟩, -⟩, -⟩ := sound
    simp only [Event.retires, Point.left, ends, Code.goesOn, Bool.toNat_true, Bool.toNat_false]
    omega
  | goto there =>
    obtain ⟨-, ⟨recent, ⟨code', next⟩, -⟩, -⟩ := sound
    obtain rfl := unique_index laid.distinct next there
    have inside := (List.getElem?_eq_some_iff.mp next).1
    simp only [Event.retires, Point.left, Code.goesOn, Bool.toNat_true]
    omega
  | exit => exact Nat.zero_le _
  | again there => exact absurd rfl (leaves _)
  | ret => exact Nat.zero_le _

theorem rank_moves (laid : Laid b blocks) {es : List Event} {p q : Point} {e : Event}
    (sound : Sound b blocks es p) (move : Moves b memory blocks p e q) (leaves : e.Leaves) :
    q.rank blocks.length < p.rank blocks.length := by
  cases move with
  | again there => exact absurd rfl (leaves _)
  | goto there =>
    obtain ⟨-, ⟨recent, ⟨code', next⟩, -⟩, -⟩ := sound
    obtain rfl := unique_index laid.distinct next there
    have inside := (List.getElem?_eq_some_iff.mp next).1
    simp only [Point.rank, Prod.Lex.toLex_lt_toLex]
    left
    omega
  | exit | ret =>
    have inside := sound.1
    simp only [Point.rank, Prod.Lex.toLex_lt_toLex]
    left
    omega
  | retire here =>
    exact Prod.Lex.toLex_lt_toLex.mpr
      (.inr ⟨rfl, Prod.Lex.toLex_lt_toLex.mpr (.inl Nat.zero_lt_one)⟩)
  | prologue | op | taken | folded _ _ | fallen _ _ =>
    -- Within a block its code gets shorter.
    refine Prod.Lex.toLex_lt_toLex.mpr
      (.inr ⟨rfl, Prod.Lex.toLex_lt_toLex.mpr (.inr ⟨rfl, ?_⟩)⟩)
    simp only [Code.size, List.length_cons]
    omega

theorem sound_goes (laid : Laid b blocks) {es : List Event} {p : Point}
    (sound : Sound b blocks es p) (going : p ≠ .returned) :
    ∃ e q, Moves b memory blocks p e q ∧ e.Leaves := by
  cases p with
  | entering i ops =>
    cases ops with
    | nil =>
      have here := List.getElem?_eq_getElem sound.1
      obtain ⟨body, same, -⟩ := laid.built i _ _ here
      exact ⟨_, _, .retire (here.trans (congrArg some (Prod.ext rfl same))), nofun⟩
    | cons o ops => exact ⟨_, _, .prologue, nofun⟩
  | inside i k =>
    cases k with
    | op o k => exact ⟨_, _, .op, nofun⟩
    | cond c x y taken fallen => exact ⟨_, _, .taken, nofun⟩
    | goto a =>
      obtain ⟨-, ⟨recent, ⟨code, next⟩, -⟩, -⟩ := sound
      exact ⟨_, _, .goto next, nofun⟩
    | backedge t => exact ⟨_, _, .exit, nofun⟩
    | ret => exact ⟨_, _, .ret, nofun⟩
  | returned => exact absurd rfl going

/-! ## Cycles -/

theorem sound_entry (some : 0 < blocks.length) : Sound b blocks [] (.entry b) :=
  .entering some (Nat.zero_le _) fun _ => Nat.zero_le _

theorem walk_sound (laid : Laid b blocks) (some : 0 < blocks.length) {es : List Event} {p : Point}
    (walk : Walk (Moves b memory blocks) (.entry b) es p) : Sound b blocks es p := by
  have sound := Walk.invariant (sound_moves laid) (sound_entry some) walk
  rwa [List.nil_append] at sound

theorem cycle_guarded (laid : Laid b blocks) {es cs : List Event} {p : Point}
    (sound : Sound b blocks es p) (cycle : Walk (Moves b memory blocks) p cs p) (moved : cs ≠ []) :
    ∃ t ops round, Closes t ops ∧ List.IsRotated cs round ∧
      (.safepoint :: ops).map Event.op ++ [.test t false] <:+ round := by
  obtain ⟨e, inside, taken⟩ := Walk.cycle_meets (fun p => ∃ es, Sound b blocks es p)
    Event.Leaves (Point.rank blocks.length)
    (fun _ _ _ ⟨_, sound⟩ move => ⟨_, sound_moves laid _ _ _ _ sound move⟩)
    (fun _ _ _ ⟨_, sound⟩ move => rank_moves laid sound move) ⟨es, sound⟩ cycle moved
  unfold Event.Leaves at taken
  simp only [ne_eq, not_forall, not_not] at taken
  obtain ⟨t, rfl⟩ := taken
  obtain ⟨before, after, rfl⟩ := List.append_of_mem inside
  obtain ⟨x, first, rest⟩ := Walk.split cycle
  obtain ⟨y, move, second⟩ := Walk.uncons rest
  -- The cycle is walked from the block the back edge leads to.
  cases move with
  | @again i j t code there =>
    have start : Sound b blocks [] (.entering j (prologue b j)) :=
      .entering (List.getElem?_eq_some_iff.mp there).1 (Nat.zero_le _) fun _ => Nat.zero_le _
    have round := Walk.invariant (sound_moves laid) start (second.append first)
    rw [List.nil_append] at round
    obtain ⟨-, ⟨recent, ⟨⟨ops, closes, behind⟩, -⟩, passed⟩, -⟩ := round
    refine ⟨t, ops, after ++ (before ++ [.test t false]), closes, ?_, ?_⟩
    · have turned := @List.isRotated_append _ (before ++ [Event.test t false]) after
      rwa [List.append_assoc, List.singleton_append] at turned
    · obtain ⟨front, rfl⟩ := behind
      rw [List.map_append] at passed
      have whole := (List.suffix_append _ _).trans passed
      rw [← List.append_assoc]
      exact List.suffix_append_inj_of_length_eq rfl |>.mpr ⟨whole, rfl⟩

/-! ## Runs -/

variable {E : Type} (P : Host E)

theorem idleWait_pc (m : Machine E) :
    (m.idleWait P).vm.programCounter = m.vm.programCounter := by
  unfold Machine.idleWait
  split <;> rfl

theorem closes_pc {t : Word} {ops : List Op} (closes : Closes t ops) {f g : Frame E}
    (ran : runAll P ops f = some g) : g.machine.vm.programCounter = t := by
  obtain rfl | rfl := closes
  · cases ran
    rfl
  · cases ran
    exact idleWait_pc P _

theorem backedge_pc {i : Nat} {k : Code} {recent : List Op} {f g : Frame E} {m : Machine E}
    {t : Word} (made : WellMade blocks i recent k) (before : runAll P recent f = some g)
    (ran : k.run P g = some (m, .backedge t)) : m.vm.programCounter = t := by
  induction k generalizing recent f g with
  | op o k ih =>
    obtain ⟨g', first, rest⟩ := Option.bind_eq_some_iff.mp ran
    have next : runAll P (recent ++ [o]) f = some g' := by
      rw [runAll_append, before, Option.bind_some, runAll, first]
      rfl
    exact ih made next rest
  | cond c x y taken fallen taken_ih fallen_ih =>
    rw [Code.run] at ran
    split at ran
    · exact taken_ih made.1 (show runAll P [] g = some g from rfl) ran
    · exact fallen_ih made.2.1 (show runAll P [] g = some g from rfl) ran
  | goto a => cases ran
  | backedge t' =>
    cases ran
    obtain ⟨⟨ops, closes, front, rfl⟩, -⟩ := made
    rw [← List.singleton_append, ← List.append_assoc, runAll_append] at before
    obtain ⟨g', -, last⟩ := Option.bind_eq_some_iff.mp before
    exact closes_pc P closes last
  | ret => cases ran

/-- Where control leaves a block. -/
def Exit.code : Exit → Code
  | .goto a => .goto a
  | .backedge t => .backedge t
  | .ret => .ret

theorem prologue_walks (i : Nat) (ops : List Op) :
    Walk (Moves b memory blocks) (.entering i ops) (ops.map .op) (.entering i []) := by
  induction ops with
  | nil => exact .nil
  | cons o ops ih => exact Walk.cons .prologue ih

theorem inside_walks {i : Nat} {a : Word} {code k : Code} (here : blocks[i]? = some (a, code))
    {f : Frame E} {m : Machine E} {exit : Exit} (ran : k.run P f = some (m, exit)) :
    ∃ es, Walk (Moves b memory blocks) (.inside i k) es (.inside i exit.code) := by
  induction k generalizing f with
  | op o k ih =>
    obtain ⟨f', -, rest⟩ := Option.bind_eq_some_iff.mp ran
    obtain ⟨es, walk⟩ := ih rest
    exact ⟨_, Walk.cons .op walk⟩
  | cond c x y taken fallen taken_ih fallen_ih =>
    rw [Code.run] at ran
    split at ran
    · obtain ⟨es, walk⟩ := taken_ih ran
      exact ⟨_, Walk.cons .taken walk⟩
    · obtain ⟨es, walk⟩ := fallen_ih ran
      cases jump : folds memory a with
      | true => exact ⟨_, Walk.cons (.folded here jump) walk⟩
      | false => exact ⟨_, Walk.cons (.fallen here jump) walk⟩
  | goto _ | backedge _ | ret =>
    cases ran
    exact ⟨[], .nil⟩

theorem block_walks (laid : Laid b blocks) {i : Nat} {a : Word} {code : Code}
    (here : blocks[i]? = some (a, code)) {f : Frame E} {m : Machine E} {exit : Exit}
    (ran : code.run P f = some (m, exit)) :
    ∃ es, Walk (Moves b memory blocks) (.entering i (prologue b i)) es (.inside i exit.code) := by
  obtain ⟨body, rfl, -⟩ := laid.built i a code here
  rw [seq_run] at ran
  obtain ⟨f', -, rest⟩ := Option.bind_eq_some_iff.mp ran
  obtain ⟨es, walk⟩ := inside_walks P here rest
  exact ⟨_, (prologue_walks i _).append (Walk.cons (.retire here) walk)⟩

theorem block_here {trace : Trace} {a : Word} {code : Code} (found : trace.block a = some code) :
    ∃ i : Nat, trace.blocks[i]? = some (a, code) := by
  obtain ⟨before, later, split, -⟩ := List.lookup_eq_some_iff.mp found
  refine ⟨before.length, ?_⟩
  rw [split, List.getElem?_append_right (Nat.le_refl _), Nat.sub_self]
  rfl

theorem step_walks {trace : Trace} (laid : Laid b trace.blocks) {d d' : Dispatcher E} {p : Point}
    (stands : Stands b trace d.position p) (going : p ≠ .returned)
    (stepped : d.step P b = some d') :
    d'.position = .stopped .errer ∨
      ∃ es q, Walk (Moves b memory trace.blocks) p es q ∧ Stands b trace d'.position q := by
  unfold Dispatcher.step at stepped
  cases position : d.position with
  | running t a =>
    rw [position] at stands stepped
    obtain ⟨rfl, i, code, here, rfl⟩ := stands
    obtain ⟨code', found, stepped⟩ := Option.bind_eq_some_iff.mp stepped
    obtain ⟨j, there⟩ := block_here found
    obtain rfl := unique_index laid.distinct here there
    cases here.symm.trans there
    split at stepped
    · cases stepped
      exact .inl rfl
    · rename_i m exit ran
      cases stepped
      obtain ⟨es, walk⟩ := @block_walks b memory _ E P laid i a code here _ m exit ran
      have start : Sound b t.blocks [] (.entering i (prologue b i)) :=
        .entering (List.getElem?_eq_some_iff.mp here).1 (Nat.zero_le _) fun _ => Nat.zero_le _
      obtain ⟨-, ⟨recent, made, -⟩, -⟩ := Walk.invariant (sound_moves laid) start walk
      right
      cases exit with
      | goto a' =>
        obtain ⟨code'', next⟩ := made
        exact ⟨_, _, .snoc walk (.goto next), rfl, _, _, next, rfl⟩
      | backedge a' => exact ⟨_, _, walk, rfl, _, rfl, made.2⟩
      | ret => exact ⟨_, _, .snoc walk .ret, rfl⟩
  | backedge t a =>
    rw [position] at stands stepped
    obtain ⟨rfl, i, rfl, j, code, there⟩ := stands
    dsimp only at stepped
    right
    split at stepped
    · cases stepped
      exact ⟨_, _, .single .exit, rfl⟩
    · cases stepped
      exact ⟨_, _, .single (.again there), rfl, _, _, there, rfl⟩
  | returned =>
    rw [position] at stands
    exact absurd (show p = .returned from stands) going
  | top | stopped _ =>
    rw [position] at stands
    exact stands.elim

/-- The safepoints of a trace cover it, whatever it was compiled from. -/
theorem codegen_covered (b : Build) (memory : Memory) (pc : Word) {rest : Code}
    {blocks : List (Word × Code)} (made : (codegen b memory pc).outcome = .code rest blocks) :
    Covered b memory ⟨pc, blocks, (codegen b memory pc).reads⟩ := by
  obtain ⟨laid, some⟩ := codegen_laid made
  refine ⟨?_, ?_, ?_, ?_, ?_⟩
  · intro E P d d' p stands going stepped
    exact step_walks P laid stands going stepped
  · intro es p cs walk cycle moved
    exact cycle_guarded laid (walk_sound laid some walk) cycle moved
  · intro E P d d₁ d₂ a t here first edge isOver second
    unfold Dispatcher.step at first second
    rw [here] at first
    rw [edge] at second
    dsimp only at second
    rw [if_pos isOver] at second
    cases second
    refine ⟨rfl, ?_⟩
    obtain ⟨code, found, ran⟩ := Option.bind_eq_some_iff.mp first
    obtain ⟨i, inside⟩ := block_here found
    obtain ⟨body, rfl, wellMade⟩ := laid.built i a code inside
    split at ran
    · cases ran
      cases edge
    · rename_i m exit runs
      cases ran
      cases exit with
      | backedge t' =>
        cases edge
        exact backedge_pc P (wellMade.behind (prologue b i)) (show runAll P [] _ = _ from rfl) runs
      | goto _ => cases edge
      | ret => cases edge
  · intro es p walk
    have sound := walk_sound laid some walk
    show sinceSafepoint es ≤ 33
    cases p with
    | entering i ops => exact sound.2.2.1.trans (Nat.le_succ 32)
    | inside i k =>
      have few := sound.2.2
      split at few <;> omega
    | returned => exact sound
  · intro es p walk
    -- Without back edges a walk only moves on through the blocks; what is left of them pays.
    have sound := walk_sound laid some walk
    have keeps (p : Point) (e : Event) (q : Point) (start : ∃ es, Sound b blocks es p)
        (move : Moves b memory blocks p e q) : ∃ es, Sound b blocks es q := by
      obtain ⟨es, sound⟩ := start
      exact ⟨_, sound_moves laid es p e q sound move⟩
    constructor
    · intro fs q further stays
      have leaves : ∀ e ∈ fs, e.Leaves := fun e inside t same => stays t (same ▸ inside)
      obtain ⟨⟨es', end_⟩, paid⟩ := Walk.supply _ Event.Leaves Event.retires
        (Point.left blocks.length) keeps
        (fun p e q start move leaves => start.elim fun _ sound => left_moves laid sound move leaves)
        ⟨es, sound⟩ further leaves
      have few : p.left blocks.length ≤ blocks.length + 1 := by
        cases p with
        | entering i ops =>
          simp only [Point.left]
          omega
        | inside i k =>
          have one := Bool.toNat_le k.goesOn
          simp only [Point.left]
          omega
        | returned => exact Nat.zero_le _
      refine ⟨?_, sound_goes laid end_⟩
      exact ((Nat.le_add_right _ _).trans paid).trans few
    · rintro point event rfl run
      obtain ⟨n, taken⟩ := Walk.not_forever _ Event.Leaves (Point.rank blocks.length) keeps
        (fun p e q start move leaves => start.elim fun _ sound => rank_moves laid sound move leaves)
        ⟨es, sound⟩ run
      unfold Event.Leaves at taken
      simp only [ne_eq, not_forall, not_not] at taken
      exact ⟨n, taken⟩

end

/-- Two loops: a jump folded into a skip, and one to itself. -/
def loops : List Byte := [0x31, 0x05, 0x12, 0x00, 0x12, 0x04]

theorem codegen_covered_loops : ∃ rest blocks,
    (codegen ⟨.libgccjit, true, false⟩ (VM.boot loops).memory 0x200#16).outcome =
      .code rest blocks ∧
    Covered ⟨.libgccjit, true, false⟩ (VM.boot loops).memory ⟨0x200#16, blocks,
      (codegen ⟨.libgccjit, true, false⟩ (VM.boot loops).memory 0x200#16).reads⟩ :=
  ⟨_, _, rfl, codegen_covered _ _ _ rfl⟩

end ChipEight.Jit
