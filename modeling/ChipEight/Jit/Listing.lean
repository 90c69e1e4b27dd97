import ChipEight.Jit.Coherence
import ChipEight.Jit.Safepoints

/-! The blocks of a compilation by their numbers.

Block `i` of a trace is what the main loop emitted with `op_count` at `i`: control leaves it for
block `i + 1`, for the dispatcher, or by a back edge to a block that is not behind it.
-/

set_option autoImplicit false

namespace ChipEight.Jit

/-- The addresses code closes a loop onto. -/
def Code.backs : Code → List Word
  | .op _ k => k.backs
  | .cond _ _ _ taken fallen => taken.backs ++ fallen.backs
  | .goto _ => []
  | .backedge t => [t]
  | .ret => []

@[simp] theorem seq_backs (ops : List Op) (k : Code) : (seq ops k).backs = k.backs := by
  induction ops with
  | nil => rfl
  | cons o ops ih => exact ih

section
variable (b : Build) (memory : Memory)

/-- A block at `t` that is not behind block `i`. -/
def Earlier (blocks : List (Word × Code)) (i : Nat) (t : Word) : Prop :=
  ∃ j ≤ i, ∃ code, blocks[j]? = some (t, code)

/-- Block `i`, the emission of the instruction at `a`. -/
inductive Listed (blocks : List (Word × Code)) (i : Nat) (a : Word) : Code → Prop
  | stop {pcBlock : List Word} {insn : Insn} {body : Code}
      (decoded : decode (opcodeAt memory a) = some insn)
      (known : ∀ t, t ∈ pcBlock ↔ Earlier blocks i t)
      (emitted : emitOf b (b.idleWait memory) pcBlock a (opcodeAt memory (a + 2)) i insn =
        .stop body) :
      Listed blocks i a (seq (prologue b i) body)
  | next {pcBlock : List Word} {insn : Insn} {pc : Word} {body : Code → Code} {code : Code}
      (decoded : decode (opcodeAt memory a) = some insn)
      (known : ∀ t, t ∈ pcBlock ↔ Earlier blocks i t)
      (emitted : emitOf b (b.idleWait memory) pcBlock a (opcodeAt memory (a + 2)) i insn =
        .next pc body)
      (there : blocks[i + 1]? = some (pc, code)) :
      Listed blocks i a (seq (prologue b i) (body (.goto pc)))
  | last {pcBlock : List Word} {insn : Insn} {pc : Word} {body : Code → Code}
      (decoded : decode (opcodeAt memory a) = some insn)
      (known : ∀ t, t ∈ pcBlock ↔ Earlier blocks i t)
      (emitted : emitOf b (b.idleWait memory) pcBlock a (opcodeAt memory (a + 2)) i insn =
        .next pc body)
      (closes : Earlier blocks i pc) (final : blocks.length = i + 1) :
      Listed blocks i a (seq (prologue b i) (body (closeLoop b memory pc)))

variable {b memory}

theorem codegenLoop_listed {fuel : Nat} {pc : Word} {opCount : Nat} {emitted : List Word}
    {rest : Code} {done blocks : List (Word × Code)}
    (made : (codegenLoop b memory fuel pc opCount emitted).outcome = .code rest blocks)
    (count : done.length = opCount) (same : ∀ t, t ∈ emitted ↔ t ∈ done.map Prod.fst) :
    (∀ i a code, blocks[i]? = some (a, code) →
      Listed b memory (done ++ blocks) (opCount + i) a code) ∧
    ((rest = .goto pc ∧ ∃ code, blocks[0]? = some (pc, code)) ∨
      rest = closeLoop b memory pc ∧ pc ∈ emitted ∧ blocks = []) := by
  induction fuel generalizing pc opCount emitted rest done blocks with
  | zero => cases made
  | succ fuel ih =>
    rw [codegenLoop] at made
    by_cases again : pc ∈ emitted
    · rw [if_pos again] at made
      cases made
      refine ⟨fun i a code here => ?_, .inr ⟨rfl, again, rfl⟩⟩
      cases here
    rw [if_neg again, emitInsn_eq] at made
    -- The blocks up to this one are those `pc_block` knows.
    have known (code : Code) (later : List (Word × Code)) (t : Word) :
        t ∈ pc :: emitted ↔ Earlier (done ++ (pc, code) :: later) opCount t := by
      have upTo : (done ++ (pc, code) :: later).take (opCount + 1) = done ++ [(pc, code)] := by
        rw [← count, List.take_append, List.take_of_length_le (Nat.le_succ _),
          Nat.add_sub_cancel_left]
        rfl
      have inFront : t ∈ pc :: emitted ↔ t ∈ (done ++ [(pc, code)]).map Prod.fst := by
        rw [List.map_append, List.mem_append, List.map_singleton, List.mem_singleton,
          List.mem_cons, same t]
        exact or_comm
      rw [inFront, ← upTo, List.mem_map]
      constructor
      · rintro ⟨⟨t, code'⟩, inside, rfl⟩
        obtain ⟨j, small, at_⟩ := List.mem_take_iff_getElem.mp inside
        refine ⟨j, by omega, code', ?_⟩
        rw [List.getElem?_eq_getElem (by omega), at_]
      · rintro ⟨j, within, code', at_⟩
        refine ⟨(t, code'), ?_, rfl⟩
        obtain ⟨small, here⟩ := List.getElem?_eq_some_iff.mp at_
        exact List.mem_take_iff_getElem.mpr ⟨j, by omega, here⟩
    cases decoded : decode (opcodeAt memory pc) with
    | none =>
      rw [decoded] at made
      cases made
    | some insn =>
      rw [decoded] at made
      dsimp only at made
      cases emission : emitOf b (b.idleWait memory) (pc :: emitted) pc
          (opcodeAt memory (pc + 2)) opCount insn with
      | bail =>
        rw [emission] at made
        cases made
      | stop body =>
        rw [emission] at made
        cases made
        refine ⟨fun i a code here => ?_, .inl ⟨rfl, _, rfl⟩⟩
        cases i with
        | zero =>
          cases here
          exact .stop decoded (known _ []) emission
        | succ i => cases here
      | next pc' body =>
        rw [emission] at made
        obtain ⟨rest', blocks', inner, rfl, rfl⟩ := prepend_code made
        have whole (code : Code) : done ++ [(pc, code)] ++ blocks' = done ++ (pc, code) :: blocks' := by
          rw [List.append_assoc, List.singleton_append]
        obtain ⟨listed, entry⟩ := @ih pc' (opCount + 1) (pc :: emitted) rest'
          (done ++ [(pc, seq (prologue b opCount) (body rest'))]) blocks' inner
          (by rw [List.length_append, count]; rfl)
          (by
            intro t
            rw [List.map_append, List.map_singleton, List.mem_append, List.mem_cons,
              List.mem_singleton, same t]
            exact or_comm)
        rw [whole] at listed
        refine ⟨fun i a code here => ?_, .inl ⟨rfl, _, rfl⟩⟩
        cases i with
        | zero =>
          cases here
          obtain ⟨rfl, code, first⟩ | ⟨rfl, old, rfl⟩ := entry
          · refine @Listed.next _ _ _ _ _ _ _ _ _ code decoded (known _ blocks') emission ?_
            rw [← count, Nat.add_zero, List.getElem?_append_right (Nat.le_add_right _ 1),
              Nat.add_sub_cancel_left]
            exact first
          · refine .last decoded (known _ []) emission ((known _ [] _).mp old) ?_
            rw [List.length_append, count]
            rfl
        | succ i =>
          rw [← Nat.succ_add_eq_add_succ]
          exact listed i a code here

theorem codegen_listed {pc : Word} {rest : Code} {blocks : List (Word × Code)}
    (made : (codegen b memory pc).outcome = .code rest blocks) {i : Nat} {a : Word} {code : Code}
    (here : blocks[i]? = some (a, code)) : Listed b memory blocks i a code := by
  have listed := (@codegenLoop_listed b memory _ pc 0 [] rest [] blocks made rfl
    (fun _ => Iff.rfl)).1 i a code here
  rwa [List.nil_append, Nat.zero_add] at listed

/-! ## Back edges -/

section
variable {idle : Word → List Op} {pcBlock : List Word} {a fusedOp : Word} {i : Nat} {insn : Insn}

theorem Code.backs_targets {c : Code} {t : Word} (back : t ∈ c.backs) : t ∈ c.targets := by
  induction c with
  | op o k ih => exact ih back
  | cond c x y taken fallen ihTaken ihFallen =>
    exact List.mem_append.mpr ((List.mem_append.mp back).imp ihTaken ihFallen)
  | goto _ => cases back
  | backedge _ => exact back
  | ret => cases back

theorem next_backs {pc : Word} {body : Code → Code}
    (emitted : emitOf b idle pcBlock a fusedOp i insn = .next pc body) {rest : Code} {t : Word}
    (back : t ∈ (body rest).backs) : t ∈ pcBlock ∨ t ∈ rest.backs := by
  cases insn with
  | jp nnn =>
    simp only [emitOf, Build.emitJump, Build.terminal] at emitted
    split at emitted
    · cases emitted
    · split at emitted
      · cases emitted
        rw [seq_backs] at back
        exact .inr back
      · cases emitted
  | skip c =>
    cases emitted
    rw [seq_backs] at back
    obtain taken | fallen := List.mem_append.mp back
    · rw [seq_backs] at taken
      exact .inr taken
    · exact .inl (emitFallen_targets b idle pcBlock a fusedOp (Code.backs_targets fallen))
  | _ =>
    simp only [emitOf, Build.straight, Build.terminal, reduceCtorEq, Emit.next.injEq] at emitted
    try
      obtain ⟨-, rfl⟩ := emitted
      rw [seq_backs] at back
      exact .inr back

end

theorem Listed.backs {blocks : List (Word × Code)} {i : Nat} {a t : Word} {code : Code}
    (listed : Listed b memory blocks i a code) (back : t ∈ code.backs) : Earlier blocks i t := by
  cases listed with
  | stop decoded known emitted =>
    rw [seq_backs] at back
    exact (known t).mp (stop_targets b _ _ _ _ emitted (Code.backs_targets back))
  | next decoded known emitted there =>
    rw [seq_backs] at back
    obtain old | none := next_backs emitted back
    · exact (known t).mp old
    · cases none
  | last decoded known emitted closes final =>
    rw [seq_backs] at back
    obtain old | here := next_backs emitted back
    · exact (known t).mp old
    · rw [closeLoop, seq_backs] at here
      cases List.mem_singleton.mp here
      exact closes

end

end ChipEight.Jit
