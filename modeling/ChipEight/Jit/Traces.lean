import ChipEight.Jit.Codegen

/-! What `codegen` emits, instruction by instruction.

`emitInsn_eq` connects the switch of the generators to `decode`, as `basicBlock_eq`
does for the interpreter. The second half describes a whole compilation: every
block is the emission of one decoded instruction, every branch leads to a block,
the bytes marked as code are the bytes read, and the loop always ends.
-/

set_option autoImplicit false

namespace ChipEight.Jit

/-! ## The switch by decoded instruction -/

/-- The selector of a class 8 operation. -/
def aluLow : AluOp → Nat
  | .move => 0x0
  | .or => 0x1
  | .and => 0x2
  | .xor => 0x3
  | .add => 0x4
  | .sub => 0x5
  | .shr => 0x6
  | .subn => 0x7
  | .shl => 0xe

def aluOps (b : Build) (o : AluOp) (x y : Reg) : List Op := (b.emitAlu (aluLow o) x y).getD []

theorem emitAlu_eq (b : Build) (low : Nat) (x y : Reg) :
    b.emitAlu low x y = (decodeAlu low).map fun o => aluOps b o x y := by
  unfold decodeAlu
  split <;> try rfl
  rename_i other
  unfold Build.emitAlu
  all_goals (split <;> first | rfl | simp_all)

/-- The comparison a register skip is compiled to, with the loads in front of it. -/
def emitSkipCond (b : Build) : SkipCond → Comparison × List Op × Value 8 × Value 8
  | .eqImm x kk => (.eq, (b.operand 0 x).1, (b.operand 0 x).2, .const kk)
  | .neImm x kk => (.ne, (b.operand 0 x).1, (b.operand 0 x).2, .const kk)
  | .eqReg x y =>
    (.eq, (b.operand 0 x).1 ++ (b.operand 1 y).1, (b.operand 0 x).2, (b.operand 1 y).2)
  | .neReg x y =>
    (.ne, (b.operand 0 x).1 ++ (b.operand 1 y).1, (b.operand 0 x).2, (b.operand 1 y).2)

section
variable (b : Build) (idle : Word → List Op) (pcBlock : List Word) (pc fusedOp : Word)

open Build

/-- The emission for a decoded instruction. -/
def emitOf (opCount : Nat) : Insn → Emit
  | .cls => straight pc [.call .clearscreenIo]
  | .ret => terminal [.call .retern]
  | .jp nnn => emitJump idle pcBlock (nnn.setWidth 16) opCount
  | .call _ => terminal (callHostOp pc .call)
  | .skip c => b.emitSkip idle pcBlock pc fusedOp (emitSkipCond b c)
  | .ld x kk => straight pc [.setReg x (.const kk)]
  | .add x kk =>
    straight pc ((b.operand 0 x).1 ++ [.setReg x (.bin .add (b.operand 0 x).2 (.const kk))])
  | .alu o x y => straight pc (aluOps b o x y)
  | .ldI nnn => straight pc [.setAddr (.const (nnn.setWidth 16))]
  | .jpV0 nnn => terminal ((b.operand 0 0#4).1 ++
      [.setPc (.bin .add (.const (nnn.setWidth 16)) (.zext (b.operand 0 0#4).2))])
  | .rnd _ _ => straight pc (callHostOp pc .randomByte)
  | .drw _ _ _ => straight pc (callHostOp pc .draw)
  | .skipKey _ up => terminal (callHostOp pc (if up then .skipKeyXUp else .skipKeyXDown))
  | .ldDelay x => straight pc (b.syncTimers ++ [.getDelay x])
  | .ldKey _ => terminal (callHostOp pc .loadOnKey)
  | .setDelay x =>
    straight pc ((b.operand 0 x).1 ++ b.syncTimers ++ [.setDelay (b.operand 0 x).2])
  | .setSound x =>
    straight pc ((b.operand 0 x).1 ++ b.syncTimers ++ [.setSound (b.operand 0 x).2])
  | .addI x =>
    straight pc ((b.operand 0 x).1 ++ [.setAddr (.bin .add .addr (.zext (b.operand 0 x).2))])
  | .ldF x => straight pc ((b.operand 0 x).1 ++ [.setAddr
      (.bin .mul (.bin .and (.zext (b.operand 0 x).2) (.const 0x0f#16)) (.const 5#16))])
  | .bcd _ => terminal (callHostOp pc .storeBcd)
  | .save _ => terminal (callHostOp pc .saveRegisters)
  | .restore _ => straight pc (callHostOp pc .restoreRegisters)

theorem emitInsn_eq (op : Word) (opCount : Nat) :
    b.emitInsn idle pcBlock pc op fusedOp opCount =
      match decode op with
      | some i => emitOf b idle pcBlock pc fusedOp opCount i
      | none => .bail := by
  simp only [Build.emitInsn, decode, emitAlu_eq, emitCond]
  split
  · rfl
  split
  · rfl
  generalize opClass op = cls
  split <;> try first | rfl | grind only
  · cases decodeAlu (opLow4 op) <;> rfl
  · generalize opLow8 op = low
    split <;> first | (simp_all; done) | rfl
  · generalize opLow8 op = low
    unfold decodeF
    split <;> first | (simp_all; done) | rfl

end

/-! ## Branches -/

/-- The addresses emitted code may branch to. -/
def Code.targets : Code → List Word
  | .op _ k => k.targets
  | .cond _ _ _ taken fallen => taken.targets ++ fallen.targets
  | .goto pc => [pc]
  | .backedge pc => [pc]
  | .ret => []

@[simp] theorem seq_targets (ops : List Op) (k : Code) : (seq ops k).targets = k.targets := by
  induction ops with
  | nil => rfl
  | cons o ops ih => exact ih

section
variable (b : Build) (idle : Word → List Op) (pcBlock : List Word) (pc fusedOp : Word)

open Build

theorem emitFallen_targets {t : Word} (mem : t ∈ (b.emitFallen idle pcBlock pc fusedOp).targets) :
    t ∈ pcBlock := by
  unfold emitFallen at mem
  split at mem
  · dsimp only at mem
    split at mem
    · rw [seq_targets] at mem
      cases List.mem_singleton.mp mem
      assumption
    · simp [Code.targets] at mem
  · simp [Code.targets] at mem

theorem stop_targets {opCount : Nat} {i : Insn} {body : Code}
    (emitted : emitOf b idle pcBlock pc fusedOp opCount i = .stop body)
    {t : Word} (mem : t ∈ body.targets) : t ∈ pcBlock := by
  cases i with
  | jp nnn =>
    simp only [emitOf, emitJump, terminal] at emitted
    split at emitted
    · cases emitted
      rw [seq_targets] at mem
      cases List.mem_singleton.mp mem
      assumption
    · split at emitted
      · cases emitted
      · cases emitted
        simp [Code.targets] at mem
  | _ => simp [emitOf, straight, terminal, emitSkip] at emitted <;> subst emitted <;>
      simp [Code.targets] at mem

theorem next_targets {opCount : Nat} {i : Insn} {pc' : Word} {body : Code → Code}
    (emitted : emitOf b idle pcBlock pc fusedOp opCount i = .next pc' body) (rest : Code)
    {t : Word} (mem : t ∈ (body rest).targets) : t ∈ pcBlock ∨ t ∈ rest.targets := by
  cases i with
  | jp nnn =>
    simp only [emitOf, emitJump, terminal] at emitted
    split at emitted
    · cases emitted
    · split at emitted
      · cases emitted
        exact .inr (by simpa using mem)
      · cases emitted
  | skip c =>
    simp only [emitOf, emitSkip] at emitted
    cases emitted
    simp only [seq_targets, Code.targets, List.mem_append] at mem
    rcases mem with taken | fallen
    · exact .inr taken
    · exact .inl (emitFallen_targets b idle pcBlock pc fusedOp fallen)
  | _ => simp [emitOf, straight, terminal] at emitted <;> obtain ⟨_, rfl⟩ := emitted <;>
      exact .inr (by simpa using mem)

end

/-! ## Whole compilations -/

section
variable (b : Build) (memory : Memory)

/-- The block of one instruction, compiled from `memory`. -/
inductive BlockOf (a : Word) : Code → Prop
  | stop {pcBlock : List Word} {opCount : Nat} {i : Insn} {body : Code}
      (decoded : decode (opcodeAt memory a) = some i)
      (emitted : emitOf b (b.idleWait memory) pcBlock a (opcodeAt memory (a + 2)) opCount i =
        .stop body) :
      BlockOf a (seq (prologue b opCount) body)
  | next {pcBlock : List Word} {opCount : Nat} {i : Insn} {pc' : Word} {body : Code → Code}
      {rest : Code} (decoded : decode (opcodeAt memory a) = some i)
      (emitted : emitOf b (b.idleWait memory) pcBlock a (opcodeAt memory (a + 2)) opCount i =
        .next pc' body)
      (closing : rest = .goto pc' ∨ rest = closeLoop b memory pc') :
      BlockOf a (seq (prologue b opCount) (body rest))

/-- What the compilation of a trace from the address `pc` on establishes. -/
structure Compiled (pc : Word) (emitted : List Word) (r : Compilation) (rest : Code)
    (blocks : List (Word × Code)) : Prop where
  entry : rest = .goto pc ∧ pc ∈ blocks.map Prod.fst ∨ rest = closeLoop b memory pc ∧ pc ∈ emitted
  built : ∀ a code, (a, code) ∈ blocks → BlockOf b memory a code
  logged : ∀ a code, (a, code) ∈ blocks → passReads memory a ⊆ r.reads
  closed : ∀ a code, (a, code) ∈ blocks → ∀ t ∈ code.targets,
    t ∈ emitted ∨ t ∈ blocks.map Prod.fst

theorem prepend_code {pc : Word} {body : Code → Code} {o : Outcome} {rest : Code}
    {blocks : List (Word × Code)} (made : o.prepend pc body = .code rest blocks) :
    ∃ rest' blocks', o = .code rest' blocks' ∧ rest = .goto pc ∧
      blocks = (pc, body rest') :: blocks' := by
  cases o with
  | code rest' blocks' =>
    cases made
    exact ⟨rest', blocks', rfl, rfl, rfl⟩
  | bail => cases made
  | outOfFuel => cases made

theorem closeLoop_targets (pc : Word) : (closeLoop b memory pc).targets = [pc] := by
  rw [closeLoop, seq_targets]
  rfl

theorem codegenLoop_compiled {fuel : Nat} {pc : Word} {opCount : Nat} {emitted : List Word}
    {rest : Code} {blocks : List (Word × Code)}
    (made : (codegenLoop b memory fuel pc opCount emitted).outcome = .code rest blocks) :
    Compiled b memory pc emitted (codegenLoop b memory fuel pc opCount emitted) rest blocks := by
  induction fuel generalizing pc opCount emitted rest blocks with
  | zero => cases made
  | succ fuel ih =>
    rw [codegenLoop] at made ⊢
    by_cases again : pc ∈ emitted
    · rw [if_pos again] at made ⊢
      cases made
      exact ⟨.inr ⟨rfl, again⟩, by simp, by simp, by simp⟩
    rw [if_neg again] at made ⊢
    rw [emitInsn_eq] at made ⊢
    cases decoded : decode (opcodeAt memory pc) with
    | none => rw [decoded] at made; cases made
    | some i =>
      rw [decoded] at made
      dsimp only at made ⊢
      cases emission : emitOf b (b.idleWait memory) (pc :: emitted) pc
          (opcodeAt memory (pc + 2)) opCount i with
      | bail => rw [emission] at made; cases made
      | stop body =>
        rw [emission] at made
        cases made
        refine ⟨.inl ⟨rfl, by simp⟩, ?_, ?_, ?_⟩
        · intro a code mem
          cases List.mem_singleton.mp mem
          exact .stop decoded emission
        · intro a code mem
          cases List.mem_singleton.mp mem
          exact fun _ => id
        · intro a code mem t target
          cases List.mem_singleton.mp mem
          rw [seq_targets] at target
          have := stop_targets b _ _ _ _ emission target
          simp only [List.mem_cons] at this
          simpa [or_comm] using this
      | next pc' body =>
        rw [emission] at made
        obtain ⟨rest', blocks', inner, rfl, rfl⟩ := prepend_code made
        have tail := ih inner
        have closing : rest' = .goto pc' ∨ rest' = closeLoop b memory pc' :=
          tail.entry.imp And.left And.left
        refine ⟨.inl ⟨rfl, by simp⟩, ?_, ?_, ?_⟩
        · intro a code mem
          rcases List.mem_cons.mp mem with same | later
          · cases same
            exact .next decoded emission closing
          · exact tail.built a code later
        · intro a code mem
          rcases List.mem_cons.mp mem with same | later
          · cases same
            exact List.subset_append_left _ _
          · exact List.subset_append_of_subset_right _ (tail.logged a code later)
        · intro a code mem t target
          -- A branch stays among the emitted addresses or goes where the rest goes.
          have inside : t ∈ pc :: emitted ∨ t ∈ blocks'.map Prod.fst := by
            rcases List.mem_cons.mp mem with same | later
            · cases same
              rw [seq_targets] at target
              rcases next_targets b _ _ _ _ emission rest' target with old | new
              · exact .inl old
              · rcases tail.entry with ⟨rfl, here⟩ | ⟨rfl, here⟩
                · cases List.mem_singleton.mp new
                  exact .inr here
                · rw [closeLoop_targets] at new
                  cases List.mem_singleton.mp new
                  exact .inl here
            · exact tail.closed a code later t target
          simp only [List.mem_cons, List.map_cons] at inside ⊢
          tauto

theorem codegenLoop_marks (fuel : Nat) (pc : Word) (opCount : Nat) (emitted : List Word) :
    (codegenLoop b memory fuel pc opCount emitted).marks =
      (codegenLoop b memory fuel pc opCount emitted).reads.map Prod.fst := by
  have word : ∀ pc : Word, markCode pc 2 = (wordReads memory pc).map Prod.fst := by
    intro pc
    simp [markCode, wordReads, List.range_succ]
  have pass : ∀ pc : Word, passMarks memory pc = (passReads memory pc).map Prod.fst := by
    intro pc
    simp only [passMarks, passReads, List.map_append, word]
    split <;> rfl
  induction fuel generalizing pc opCount emitted with
  | zero => rfl
  | succ fuel ih =>
    rw [codegenLoop]
    split
    · exact word pc
    · dsimp only
      split
      · exact pass pc
      · exact pass pc
      · simp only [List.map_append, pass, ih]

theorem wordReads_value {pc : Word} {a : Addr} {v : Byte} (read : (a, v) ∈ wordReads memory pc) :
    memory a = v := by
  simp only [wordReads, List.mem_cons, List.not_mem_nil, or_false] at read
  rcases read with same | same <;> cases same <;> rfl

theorem passReads_value {pc : Word} {a : Addr} {v : Byte} (read : (a, v) ∈ passReads memory pc) :
    memory a = v := by
  rcases List.mem_append.mp read with first | second
  · exact wordReads_value memory first
  · split at second
    · exact wordReads_value memory second
    · cases second

theorem codegenLoop_reads {fuel : Nat} {pc : Word} {opCount : Nat} {emitted : List Word}
    {a : Addr} {v : Byte}
    (read : (a, v) ∈ (codegenLoop b memory fuel pc opCount emitted).reads) : memory a = v := by
  induction fuel generalizing pc opCount emitted with
  | zero => cases read
  | succ fuel ih =>
    rw [codegenLoop] at read
    split at read
    · exact wordReads_value memory read
    · dsimp only at read
      split at read
      · exact passReads_value memory read
      · exact passReads_value memory read
      · rcases List.mem_append.mp read with here | later
        · exact passReads_value memory here
        · exact ih later

theorem opcodeAt_congr {memory memory' : Memory} {pc : Word}
    (agree : ∀ a v, (a, v) ∈ wordReads memory pc → memory' a = memory a) :
    opcodeAt memory' pc = opcodeAt memory pc := by
  unfold opcodeAt
  rw [agree (mask pc) _ List.mem_cons_self,
    agree (mask (pc + 1)) _ (List.mem_cons_of_mem _ List.mem_cons_self)]

theorem words_length_le {ws : List Word} (distinct : ws.Nodup) : ws.length ≤ 2 ^ 16 := by
  have bounded : (ws.map BitVec.toNat).length ≤ (List.range (2 ^ 16)).length := by
    apply List.Subperm.length_le
    apply List.subperm_of_subset
    · exact distinct.map fun _ _ same => BitVec.eq_of_toNat_eq same
    · intro n mem
      obtain ⟨w, -, rfl⟩ := List.mem_map.mp mem
      exact List.mem_range.mpr w.isLt
  rwa [List.length_map, List.length_range] at bounded

theorem codegenLoop_terminates {fuel : Nat} {pc : Word} {opCount : Nat} {emitted : List Word}
    (distinct : emitted.Nodup) (enough : 2 ^ 16 < fuel + emitted.length) :
    (codegenLoop b memory fuel pc opCount emitted).outcome ≠ .outOfFuel := by
  induction fuel generalizing pc opCount emitted with
  | zero =>
    have bounded := words_length_le distinct
    omega
  | succ fuel ih =>
    rw [codegenLoop]
    by_cases again : pc ∈ emitted
    · simp [again]
    · rw [if_neg again]
      dsimp only
      split
      · simp
      · simp
      · rename_i pc' body _
        have inner := @ih pc' (opCount + 1) (pc :: emitted) (distinct.cons again)
          (by simp only [List.length_cons]; omega)
        dsimp only
        intro out
        cases o : (codegenLoop b memory fuel pc' (opCount + 1) (pc :: emitted)).outcome with
        | outOfFuel => exact inner o
        | bail => rw [o] at out; cases out
        | code rest blocks => rw [o] at out; cases out

theorem codegen_terminates (pc : Word) : (codegen b memory pc).outcome ≠ .outOfFuel :=
  codegenLoop_terminates b memory List.nodup_nil (by simp)

end

end ChipEight.Jit
