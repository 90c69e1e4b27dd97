import ChipEight.Jit.Traces

/-! The path a compilation follows.

`codegen` walks forward from its entry: past straight-line operations, along the
taken side of every skip, and through jumps as long as the trace is short. The
path is stated here from memory alone, and the addresses the main loop passes are
shown to be exactly the addresses of the path.
-/

set_option autoImplicit false

namespace ChipEight

/-- How long a trace may be for a jump to be followed: `1 << 8`. -/
def jumpLimit : Nat := 1 <<< 8

/-- Where the compilation goes on after an instruction, the `k`-th of its trace. -/
def Insn.successor (k : Nat) (pc : Word) : Insn → Option Word
  | .jp nnn => if k < jumpLimit then some (nnn.setWidth 16) else none
  | .skip _ => some (pc + 4)
  | .ret | .call _ | .jpV0 _ | .skipKey _ _ | .ldKey _ | .bcd _ | .save _ => none
  | _ => some (pc + 2)

namespace Jit

def successor (memory : Memory) (k : Nat) (pc : Word) : Option Word :=
  (decode (opcodeAt memory pc)).bind (Insn.successor k pc)

/-- The address of the `k`-th instruction on the path from `pc`. -/
def staticPath (memory : Memory) (pc : Word) : Nat → Option Word
  | 0 => some pc
  | k + 1 => (staticPath memory pc k).bind (successor memory k)

section
variable {memory : Memory} {entry : Word}

theorem staticPath_succ {k : Nat} {a : Word} :
    staticPath memory entry (k + 1) = some a ↔
      ∃ p, staticPath memory entry k = some p ∧ successor memory k p = some a :=
  Option.bind_eq_some_iff

theorem successor_earlier {j k : Nat} {p a : Word} (within : j ≤ k)
    (later : successor memory k p = some a) : successor memory j p = some a := by
  unfold successor at later ⊢
  cases decoded : decode (opcodeAt memory p) with
  | none => rw [decoded] at later; cases later
  | some i =>
    rw [decoded] at later
    cases i with
    | jp nnn =>
      simp only [Option.bind_some, Insn.successor] at later ⊢
      split at later
      · rw [if_pos (by omega)]
        exact later
      · cases later
    | _ => exact later

theorem staticPath_cycle {k : Nat}
    (back : ∀ a, staticPath memory entry k = some a → ∃ j < k, staticPath memory entry j = some a)
    {n : Nat} {a : Word} (reached : staticPath memory entry n = some a) (pos : n ≥ k) :
    ∃ j < k, staticPath memory entry j = some a := by
  induction n generalizing a with
  | zero =>
    obtain rfl : k = 0 := Nat.le_zero.mp pos
    exact back a reached
  | succ n ih =>
    by_cases here : n + 1 = k
    · exact back a (here ▸ reached)
    · obtain ⟨p, before, followed⟩ := staticPath_succ.mp reached
      obtain ⟨j, below, seen⟩ := ih before (by omega)
      have again : staticPath memory entry (j + 1) = some a :=
        staticPath_succ.mpr ⟨p, seen, successor_earlier (by omega) followed⟩
      by_cases last : j + 1 = k
      · exact back a (last ▸ again)
      · exact ⟨j + 1, by omega, again⟩

theorem emitOf_successor {b : Build} {idle : Word → List Op} {pcBlock : List Word}
    {pc fusedOp : Word} {k : Nat} {i : Insn} :
    match emitOf b idle pcBlock pc fusedOp k i with
    | .bail => False
    | .stop _ => ∀ t, i.successor k pc = some t → t ∈ pcBlock
    | .next pc' _ => i.successor k pc = some pc' := by
  cases i with
  | jp nnn =>
    simp only [emitOf, Build.emitJump, Build.terminal]
    by_cases closed : nnn.setWidth 16 ∈ pcBlock
    · rw [if_pos closed]
      intro t followed
      simp only [Insn.successor] at followed
      split at followed
      · cases followed
        exact closed
      · cases followed
    · rw [if_neg closed]
      by_cases short : k < 1 <<< 8
      · rw [if_pos short]
        exact if_pos short
      · rw [if_neg short]
        intro t followed
        rw [Insn.successor, jumpLimit, if_neg short] at followed
        cases followed
  | skip c => rfl
  | ret | call nnn | jpV0 nnn | skipKey x up | ldKey x | bcd x | save x =>
    intro t followed
    cases followed
  | _ => rfl

end

section
variable (b : Build) (memory : Memory) (entry : Word)

/-- The addresses a compilation has emitted before its `k`-th instruction. -/
def Visited (k : Nat) (emitted : List Word) : Prop :=
  ∀ a, a ∈ emitted ↔ ∃ j < k, staticPath memory entry j = some a

theorem Visited.cons {k : Nat} {emitted : List Word} {pc : Word}
    (visited : Visited memory entry k emitted) (here : staticPath memory entry k = some pc) :
    Visited memory entry (k + 1) (pc :: emitted) := by
  intro a
  rw [List.mem_cons, visited a]
  constructor
  · rintro (rfl | ⟨j, below, seen⟩)
    · exact ⟨k, Nat.lt_succ_self k, here⟩
    · exact ⟨j, by omega, seen⟩
  · rintro ⟨j, below, seen⟩
    by_cases last : j = k
    · subst last
      exact .inl (Option.some.inj (seen.symm.trans here))
    · exact .inr ⟨j, by omega, seen⟩

theorem target_lt (op : Word) : (target op).toNat < memorySize := by
  simp only [target, immediate12, BitVec.toNat_setWidth, memorySize]
  omega

theorem indices_sound {fuel k : Nat} {pc : Word} {emitted : List Word}
    (here : staticPath memory entry k = some pc) {i : Word}
    (used : i ∈ (codegenLoop b memory fuel pc k emitted).indices) :
    (∃ j, staticPath memory entry j = some i) ∨ i.toNat < memorySize := by
  -- A pass of the loop uses its own address and the target of its jump, which has twelve bits.
  have pass : ∀ {pc k}, staticPath memory entry k = some pc → i ∈ pc :: passTargets memory pc →
      (∃ j, staticPath memory entry j = some i) ∨ i.toNat < memorySize := by
    intro pc k here mem
    rcases List.mem_cons.mp mem with rfl | isTarget
    · exact .inl ⟨k, here⟩
    · refine .inr ?_
      unfold passTargets at isTarget
      dsimp only at isTarget
      split_ifs at isTarget
      · cases List.mem_singleton.mp isTarget
        exact target_lt _
      · cases List.mem_singleton.mp isTarget
        exact target_lt _
      · cases isTarget
  induction fuel generalizing pc k emitted with
  | zero => cases used
  | succ fuel ih =>
    rw [codegenLoop, emitInsn_eq] at used
    split at used
    · cases List.mem_singleton.mp used
      exact .inl ⟨k, here⟩
    · cases decoded : decode (opcodeAt memory pc) with
      | none =>
        rw [decoded] at used
        exact pass here used
      | some insn =>
        rw [decoded] at used
        have leads := @emitOf_successor b (b.idleWait memory) (pc :: emitted) pc
          (opcodeAt memory (pc + 2)) k insn
        dsimp only at used
        cases emission : emitOf b (b.idleWait memory) (pc :: emitted) pc
            (opcodeAt memory (pc + 2)) k insn with
        | bail => rw [emission] at used; exact pass here used
        | stop body => rw [emission] at used; exact pass here used
        | next pc' body =>
          rw [emission] at used leads
          rcases List.mem_append.mp used with now | later
          · exact pass here now
          · refine ih (staticPath_succ.mpr ⟨pc, here, ?_⟩) later
            rw [successor, decoded]
            exact leads

theorem indices_complete {fuel k : Nat} {pc : Word} {emitted : List Word}
    (here : staticPath memory entry k = some pc) (visited : Visited memory entry k emitted)
    (ends : (codegenLoop b memory fuel pc k emitted).outcome ≠ .outOfFuel)
    {n : Nat} {a : Word} (reached : staticPath memory entry n = some a) :
    a ∈ emitted ∨ a ∈ (codegenLoop b memory fuel pc k emitted).indices := by
  induction fuel generalizing pc k emitted with
  | zero => exact absurd rfl ends
  | succ fuel ih =>
    by_cases before : n < k
    · exact .inl ((visited a).mpr ⟨n, before, reached⟩)
    have visited' := visited.cons memory entry here
    have split_mem : a ∈ pc :: emitted → ∀ l : List Word, a ∈ emitted ∨ a ∈ pc :: l := by
      intro mem l
      rcases List.mem_cons.mp mem with rfl | old
      · exact .inr List.mem_cons_self
      · exact .inl old
    -- When the trace ends here, the rest of the path has been emitted.
    have closed : (∀ t, successor memory k pc = some t → t ∈ pc :: emitted) →
        a ∈ pc :: emitted := by
      intro leads
      by_cases now : n = k
      · subst now
        exact (visited' a).mpr ⟨n, Nat.lt_succ_self n, reached⟩
      · refine (visited' a).mpr (staticPath_cycle ?_ reached (by omega))
        intro t next
        obtain ⟨p, at_, followed⟩ := staticPath_succ.mp next
        cases here.symm.trans at_
        exact (visited' t).mp (leads t followed)
    rw [codegenLoop, emitInsn_eq] at ends ⊢
    by_cases again : pc ∈ emitted
    · rw [if_pos again]
      obtain ⟨j, below, seen⟩ := (visited pc).mp again
      obtain ⟨j', below', seen'⟩ := staticPath_cycle
        (fun t at_ => ⟨j, below, seen.trans (here.symm.trans at_)⟩) reached (by omega)
      exact .inl ((visited a).mpr ⟨j', below', seen'⟩)
    rw [if_neg again] at ends ⊢
    cases decoded : decode (opcodeAt memory pc) with
    | none =>
      refine split_mem (closed ?_) _
      intro t followed
      simp [successor, decoded] at followed
    | some insn =>
      rw [decoded] at ends
      have leads := @emitOf_successor b (b.idleWait memory) (pc :: emitted) pc
        (opcodeAt memory (pc + 2)) k insn
      dsimp only at ends ⊢
      cases emission : emitOf b (b.idleWait memory) (pc :: emitted) pc
          (opcodeAt memory (pc + 2)) k insn with
      | bail => rw [emission] at leads; exact absurd leads id
      | stop body =>
        rw [emission] at leads
        refine split_mem (closed ?_) _
        intro t followed
        rw [successor, decoded] at followed
        exact leads t followed
      | next pc' body =>
        rw [emission] at leads ends
        have next : staticPath memory entry (k + 1) = some pc' := by
          refine staticPath_succ.mpr ⟨pc, here, ?_⟩
          rw [successor, decoded]
          exact leads
        have inner : (codegenLoop b memory fuel pc' (k + 1) (pc :: emitted)).outcome ≠
            .outOfFuel := by
          intro out
          apply ends
          dsimp only
          rw [out]
          rfl
        rcases ih next visited' inner with old | later
        · exact split_mem old _
        · exact .inr (List.mem_append_right _ later)

end

end Jit

end ChipEight
