import ChipEight.Jit.Traces
import ChipEight.Library.Run

/-! Why the `for` loop of `codegen` ends.

The loop has no condition of its own. It is taken here as a machine with the variables
the generators give it, 16 bits wide, and `codegenLoop` is shown to be its run. A pass
that goes on has put a block where `pc_block` had none, so that the addresses without
a block run out.
-/

set_option autoImplicit false

namespace ChipEight.Jit

/-! ## The machine -/

/-- `pc`, `op_count`, and the addresses `pc_block` holds a block for, in the order opposite
to that of their emission. -/
structure Loop where
  pc : Word
  opCount : BitVec 16
  pcBlock : List Word
  /-- The loop was left: `return NULL`, `goto end_of_trace` or `goto trace_terminated`. -/
  left : Bool

def Loop.entry (programCounter : Word) : Loop := ⟨programCounter, 0, [], false⟩

/-- What the body leaves in `pc` where it goes on. -/
def afterBody (op pc : Word) : Word :=
  if isJump op then target op - 2
  else if isSkip op then pc + 2
  else pc

section
variable (b : Build) (memory : Memory)

/-- One pass, and `pc += 2, ++op_count` behind it. -/
def pass (l : Loop) : Option Loop :=
  if l.left then none
  else if l.pcBlock.contains l.pc then some { l with left := true }
  else
    let op := opcodeAt memory l.pc
    match b.emitInsn (b.idleWait memory) (l.pc :: l.pcBlock) l.pc op (opcodeAt memory (l.pc + 2))
        l.opCount.toNat with
    | .next _ _ => some ⟨afterBody op l.pc + 2, l.opCount + 1, l.pc :: l.pcBlock, false⟩
    | _ => some { l with pcBlock := l.pc :: l.pcBlock, left := true }

end

/-! ## The next address -/

section
variable {b : Build} {idle : Word → List Op} {pcBlock : List Word} {pc op fusedOp : Word}
  {opCount : Nat} {pc' : Word} {body : Code → Code}

open Build

theorem straight_pc {ops : List Op} (emitted : straight pc ops = .next pc' body) :
    pc' = pc + 2 := by
  cases emitted
  rfl

theorem emitSkip_pc {c : Comparison × List Op × Value 8 × Value 8}
    (emitted : b.emitSkip idle pcBlock pc fusedOp c = .next pc' body) : pc' = pc + 2 + 2 := by
  cases emitted
  rw [BitVec.add_assoc]
  rfl

theorem emitJump_pc {t : Word} (emitted : emitJump idle pcBlock t opCount = .next pc' body) :
    pc' = t - 2 + 2 := by
  rw [BitVec.sub_add_cancel]
  unfold emitJump at emitted
  dsimp only at emitted
  split at emitted
  · cases emitted
  · split at emitted
    · cases emitted
      rfl
    · cases emitted

theorem afterBody_jump (notCls : op ≠ 0x00e0#16) (notRet : op ≠ 0x00ee#16)
    (cls : opClass op = 0x0 ∨ opClass op = 0x1) : afterBody op pc = target op - 2 := by
  have jumps : isJump op = true := by simp [isJump, notCls, notRet, cls]
  rw [afterBody, if_pos jumps]

theorem afterBody_skip (skips : isSkip op = true) : afterBody op pc = pc + 2 := by
  have noJump : isJump op = false := by
    simp only [isSkip, Bool.or_eq_true, beq_iff_eq] at skips
    obtain ((cls | cls) | cls) | cls := skips <;> simp [isJump, cls]
  rw [afterBody, noJump, if_neg Bool.false_ne_true, if_pos skips]

theorem afterBody_straight (class0 : opClass op ≠ 0x0) (class1 : opClass op ≠ 0x1)
    (noSkip : isSkip op = false) : afterBody op pc = pc := by
  have noJump : isJump op = false := by simp [isJump, class0, class1]
  rw [afterBody, noJump, noSkip, if_neg Bool.false_ne_true, if_neg Bool.false_ne_true]

theorem emitInsn_pc
    (emitted : b.emitInsn idle pcBlock pc op fusedOp opCount = .next pc' body) :
    pc' = afterBody op pc + 2 := by
  unfold emitInsn at emitted
  dsimp only at emitted
  split at emitted
  · rename_i cls
    rw [straight_pc emitted, afterBody, eq_of_beq cls]
    rfl
  split at emitted
  · cases emitted
  rename_i notCls notRet
  simp only [beq_iff_eq] at notCls notRet
  -- Three ways on, by the class of the word: to the target, behind a skip, and to the next word.
  have jump (cls : opClass op = 0x0 ∨ opClass op = 0x1)
      (next : emitJump idle pcBlock (target op) opCount = .next pc' body) :
      pc' = afterBody op pc + 2 := by
    rw [afterBody_jump notCls notRet cls, emitJump_pc next]
  have skip (cls : isSkip op = true)
      (next : b.emitSkip idle pcBlock pc fusedOp (b.emitCond op) = .next pc' body) :
      pc' = afterBody op pc + 2 := by
    rw [afterBody_skip cls, emitSkip_pc next]
  have plain {n : Nat} (cls : opClass op = n) {ops : List Op}
      (next : straight pc ops = .next pc' body) (others : n ∉ [0x0, 0x1, 0x3, 0x4, 0x5, 0x9]) :
      pc' = afterBody op pc + 2 := by
    simp only [List.mem_cons, List.not_mem_nil, or_false, not_or] at others
    rw [afterBody_straight (by simp [cls, others]) (by simp [cls, others])
      (by simp [isSkip, cls, others]), straight_pc next]
  split at emitted
  case h_1 cls => exact jump (.inl cls) emitted
  case h_2 cls => exact jump (.inr cls) emitted
  case h_3 => cases emitted
  case h_4 cls => exact skip (by simp [isSkip, cls]) emitted
  case h_5 cls => exact skip (by simp [isSkip, cls]) emitted
  case h_6 cls => exact skip (by simp [isSkip, cls]) emitted
  case h_7 cls => exact plain cls emitted (by decide)
  case h_8 cls => exact plain cls emitted (by decide)
  case h_9 cls =>
    split at emitted
    · exact plain cls emitted (by decide)
    · cases emitted
  case h_10 cls => exact skip (by simp [isSkip, cls]) emitted
  case h_11 cls => exact plain cls emitted (by decide)
  case h_12 => cases emitted
  case h_13 cls => exact plain cls emitted (by decide)
  case h_14 cls => exact plain cls emitted (by decide)
  case h_15 => split at emitted <;> cases emitted
  case h_16 cls =>
    split at emitted <;> first | exact plain cls emitted (by decide) | cases emitted
  case h_17 => cases emitted

end

/-! ## Passes -/

/-- No address was emitted twice, and `op_count` counts the addresses, modulo 2^16. -/
structure Numbered (l : Loop) : Prop where
  distinct : l.pcBlock.Nodup
  counts : l.left = false → l.opCount = BitVec.ofNat 16 l.pcBlock.length

/-- The passes that may still come. -/
def Loop.ahead (l : Loop) : Nat := if l.left then 0 else 2 ^ 16 - l.pcBlock.length + 1

section
variable {b : Build} {memory : Memory} {l l' : Loop}

theorem Numbered.entry (programCounter : Word) : Numbered (Loop.entry programCounter) :=
  ⟨List.nodup_nil, fun _ => rfl⟩

theorem pass_left (isLeft : l.left = true) : pass b memory l = none := by
  rw [pass, if_pos isLeft]

theorem pass_none (stands : pass b memory l = none) : l.left = true := by
  unfold pass at stands
  split at stands
  · assumption
  split at stands
  · cases stands
  · dsimp only at stands
    split at stands <;> cases stands

theorem pass_cases (passed : pass b memory l = some l') :
    l.left = false ∧ (l.pc ∈ l.pcBlock ∧ l' = { l with left := true } ∨
      l.pc ∉ l.pcBlock ∧ l'.pcBlock = l.pc :: l.pcBlock ∧
        (l'.left = false → l'.opCount = l.opCount + 1)) := by
  unfold pass at passed
  split at passed
  · cases passed
  rename_i runs
  refine ⟨Bool.eq_false_iff.mpr runs, ?_⟩
  split at passed
  · rename_i again
    cases passed
    exact .inl ⟨List.contains_iff_mem.mp again, rfl⟩
  rename_i new
  refine .inr ⟨mt List.contains_iff_mem.mpr new, ?_⟩
  dsimp only at passed
  split at passed
  · cases passed
    exact ⟨rfl, fun _ => rfl⟩
  · cases passed
    exact ⟨rfl, fun goesOn => by cases goesOn⟩

theorem Numbered.number (numbered : Numbered l) (runs : l.left = false) (new : l.pc ∉ l.pcBlock) :
    l.opCount.toNat = l.pcBlock.length := by
  have room : (l.pc :: l.pcBlock).length ≤ 2 ^ 16 := words_length_le (numbered.distinct.cons new)
  rw [List.length_cons] at room
  rw [numbered.counts runs, BitVec.toNat_ofNat]
  exact Nat.mod_eq_of_lt room

theorem Numbered.pass (numbered : Numbered l) (passed : pass b memory l = some l') : Numbered l' := by
  obtain ⟨runs, ⟨-, rfl⟩ | ⟨new, blocks, counted⟩⟩ := pass_cases passed
  · exact ⟨numbered.distinct, fun goesOn => by cases goesOn⟩
  · refine ⟨?_, ?_⟩
    · rw [blocks]
      exact numbered.distinct.cons new
    · intro goesOn
      rw [counted goesOn, numbered.counts runs, blocks, List.length_cons, BitVec.ofNat_add]
      rfl

theorem Numbered.lowers (numbered : Numbered l) (passed : Jit.pass b memory l = some l') :
    l'.ahead < l.ahead := by
  obtain ⟨runs, ⟨-, rfl⟩ | ⟨new, blocks, -⟩⟩ := pass_cases passed
  · simp [Loop.ahead, runs]
  · have room : (l.pc :: l.pcBlock).length ≤ 2 ^ 16 := words_length_le (numbered.distinct.cons new)
    rw [List.length_cons] at room
    rw [Loop.ahead, Loop.ahead, runs, blocks, List.length_cons, if_neg Bool.false_ne_true]
    split
    · exact Nat.succ_pos _
    · omega

theorem Numbered.reached (numbered : Numbered l) (reached : Run.Reaches (Jit.pass b memory) l l') :
    Numbered l' :=
  reached.invariant (fun _ _ => Numbered.pass) numbered

end

/-! ## The run is that of `codegen` -/

section
variable {b : Build} {memory : Memory}

theorem finish_left {l : Loop} (isLeft : l.left = true) (n : Nat) :
    Run.finish (pass b memory) n l = l := by
  cases n with
  | zero => rfl
  | succ n => rw [Run.finish, pass_left isLeft]

theorem codegenLoop_passes {fuel : Nat} {l : Loop} {rest : Code} {blocks : List (Word × Code)}
    (numbered : Numbered l) (runs : l.left = false)
    (made : (codegenLoop b memory fuel l.pc l.pcBlock.length l.pcBlock).outcome =
      .code rest blocks) :
    (Run.finish (pass b memory) fuel l).pcBlock.reverse =
      l.pcBlock.reverse ++ blocks.map Prod.fst := by
  induction fuel generalizing l rest blocks with
  | zero => cases made
  | succ fuel ih =>
    have goes : ¬ l.left = true := by simp [runs]
    rw [codegenLoop] at made
    by_cases again : l.pc ∈ l.pcBlock
    · rw [if_pos again] at made
      cases made
      rw [Run.finish, pass, if_neg goes, if_pos (List.contains_iff_mem.mpr again)]
      simp only
      rw [finish_left rfl]
      simp
    · rw [if_neg again, ← numbered.number runs again] at made
      rw [Run.finish, pass, if_neg goes, if_neg (mt List.contains_iff_mem.mp again)]
      dsimp only at made ⊢
      split at made
      · cases made
      · cases made
        rename_i emission
        rw [emission]
        dsimp only
        rw [finish_left rfl]
        simp
      · rename_i pc' body emission
        obtain ⟨rest', blocks', inner, rfl, rfl⟩ := prepend_code made
        -- The next pass begins at `pc'` with one block more.
        set next : Loop := ⟨afterBody (opcodeAt memory l.pc) l.pc + 2, l.opCount + 1,
          l.pc :: l.pcBlock, false⟩ with isNext
        have passed : pass b memory l = some next := by
          rw [pass, if_neg goes, if_neg (mt List.contains_iff_mem.mp again)]
          dsimp only
          rw [emission]
        rw [emitInsn_pc emission, numbered.number runs again] at inner
        rw [emission]
        dsimp only
        rw [ih (numbered.pass passed) rfl inner]
        simp [isNext]

theorem entry_finishes (programCounter : Word) :
    (Run.finish (pass b memory) (2 ^ 16 + 1) (Loop.entry programCounter)).left = true := by
  apply @pass_none b memory
  apply @Run.finish_stops_inv _ _ Numbered Loop.ahead
  · exact fun _ _ => Numbered.pass
  · exact fun _ _ => Numbered.lowers
  · exact .entry programCounter
  · exact Nat.le_refl _

end

/-- The loop of `codegen` ends, whatever the memory holds and wherever it is entered, after at
most one pass for every address and the pass that closes it; no address is emitted twice, nor
does `op_count` wrap before the loop ends; and the code of the trace, where there is one, has one
block for each address emitted. -/
theorem codegen_ends (b : Build) (memory : Memory) (programCounter : Word) :
    (Run.finish (pass b memory) (2 ^ 16 + 1) (Loop.entry programCounter)).left = true ∧
    (∀ l, Run.Reaches (pass b memory) (Loop.entry programCounter) l →
      l.pcBlock.Nodup ∧
        (l.left = false → l.pc ∉ l.pcBlock → l.opCount.toNat = l.pcBlock.length)) ∧
    (codegen b memory programCounter).outcome ≠ .outOfFuel ∧
    ∀ rest blocks, (codegen b memory programCounter).outcome = .code rest blocks →
      (blocks.map Prod.fst).Nodup ∧
        (Run.finish (pass b memory) (2 ^ 16 + 1) (Loop.entry programCounter)).pcBlock.reverse =
          blocks.map Prod.fst := by
  refine ⟨entry_finishes programCounter, ?_, codegen_terminates b memory programCounter, ?_⟩
  · intro l reached
    have numbered := (Numbered.entry programCounter).reached reached
    exact ⟨numbered.distinct, numbered.number⟩
  · intro rest blocks made
    have same := codegenLoop_passes (.entry programCounter) rfl made
    have numbered := (Numbered.entry programCounter).reached
      (Run.finish_reaches (2 ^ 16 + 1) (Loop.entry programCounter) : Run.Reaches (pass b memory) _ _)
    rw [Loop.entry, List.reverse_nil, List.nil_append] at same
    refine ⟨?_, same⟩
    rw [← same]
    exact List.nodup_reverse.mpr numbered.distinct

end ChipEight.Jit
