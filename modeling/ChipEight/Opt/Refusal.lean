import ChipEight.Opt.Accesses
import ChipEight.Opt.Peephole

/-! What `optimize_peepholes` refuses. -/

set_option autoImplicit false

namespace ChipEight.Opt

open Asm (Text Token Mnemonic)

section
variable (U : Unicode)

/-- The hazards that are rejected: computed jumps, self-modifying code, and accesses where `I`
is unknown and no base of it is known either. -/
def Rejected (a : Analysis) : Hazard → Prop
  | .computedJump _ => True
  | .selfModifying _ _ => True
  | .dynamicI pc _ => ∀ access ∈ a.accesses, access.kind.isDynamic = true → access.pc ≠ pc
  | _ => False

/-- A reference to an address of the ROM by its number. -/
def NumericAddress (statements : List Statement) (labels : Labels) (s : Statement) : Prop :=
  isReference s = true ∧ numericLast U s = true ∧
    ∃ value, target U labels s = some value ∧ (entry : Int) ≤ value ∧
      value < payloadEnd statements

/-- The program the optimizer analyzes has something in it that is rejected: `.ORG`, an
address by its number, or a hazard. -/
def Stopped (statements : List Statement) (labels : Labels) (a : Analysis) : Prop :=
  (∃ s ∈ statements, s.op = some opOrg) ∨
    (∃ s ∈ statements, NumericAddress U statements labels s) ∨
      ∃ h ∈ a.hazards, Rejected a h

variable {U}

theorem blocks_iff {a : Analysis} {h : Hazard} :
    h.blocks ((a.accesses.filter fun access => access.kind.isDynamic).map Access.pc) = true ↔
      Rejected a h := by
  cases h with
  | dynamicI pc reason =>
    unfold Hazard.blocks Rejected
    rw [Bool.not_eq_true', ← Bool.not_eq_true, List.contains_iff_mem, List.mem_map]
    constructor
    · intro none access inside dynamic same
      exact none ⟨access, List.mem_filter.mpr ⟨inside, dynamic⟩, same⟩
    · rintro apart ⟨access, inside, same⟩
      obtain ⟨inside, dynamic⟩ := List.mem_filter.mp inside
      exact apart access inside dynamic same
  | _ => simp [Hazard.blocks, Rejected]

theorem statementProblems_eq_nil {statements : List Statement} {labels : Labels} {s : Statement} :
    statementProblems U statements labels s = [] ↔
      s.op ≠ some opOrg ∧ ¬ NumericAddress U statements labels s := by
  have low : entry = 512 := rfl
  unfold statementProblems NumericAddress
  dsimp only
  rw [List.append_eq_nil_iff]
  refine and_congr ?_ ?_
  · split
    · rename_i isOrg
      exact ⟨nofun, fun other => absurd (beq_iff_eq.mp isOrg) other⟩
    · rename_i other
      exact ⟨fun _ same => other (beq_iff_eq.mpr same), fun _ => rfl⟩
  · cases target U labels s with
    | none => simp [low]
    | some value =>
      simp only [Option.getD_some, Option.some.injEq, exists_eq_left']
      split
      · rename_i numeric
        simp only [Bool.and_eq_true, decide_eq_true_eq] at numeric
        exact ⟨nofun, fun other =>
          absurd ⟨numeric.1.1.1, numeric.1.1.2, numeric.1.2, numeric.2⟩ other⟩
      · rename_i other
        refine ⟨fun _ numeric => other ?_, fun _ => rfl⟩
        simp only [Bool.and_eq_true, decide_eq_true_eq]
        exact ⟨⟨⟨numeric.1, numeric.2.1⟩, numeric.2.2.1⟩, numeric.2.2.2⟩

theorem relocationHazards_eq_nil {statements : List Statement} {labels : Labels} {a : Analysis} :
    relocationHazards U statements labels a = [] ↔ ¬ Stopped U statements labels a := by
  unfold relocationHazards Stopped
  dsimp only
  rw [List.append_eq_nil_iff, List.map_eq_nil_iff, List.filter_eq_nil_iff, List.flatMap_eq_nil_iff]
  simp only [statementProblems_eq_nil, blocks_iff, not_or, not_exists, not_and]
  constructor
  · rintro ⟨hazards, statements⟩
    exact ⟨fun s here => (statements s here).1, fun s here => (statements s here).2, hazards⟩
  · rintro ⟨org, numeric, hazards⟩
    exact ⟨hazards, fun s here => ⟨org s here, numeric s here⟩⟩

theorem optimizePeepholes_error {statements : List Statement} {labels : Labels} :
    (∃ problem, optimizePeepholes U statements labels = .error problem) ↔
      ∀ a, analyze U (symbolize U statements labels).2 (symbolize U statements labels).1 = some a →
        Stopped U (symbolize U statements labels).1 (symbolize U statements labels).2 a := by
  unfold optimizePeepholes
  dsimp only
  generalize symbolize U statements labels = program
  cases analyze U program.2 program.1 with
  | none => exact ⟨fun _ => nofun, fun _ => ⟨_, rfl⟩⟩
  | some a =>
    dsimp only
    have problems := @relocationHazards_eq_nil U program.1 program.2 a
    by_cases empty : relocationHazards U program.1 program.2 a = []
    · rw [empty, List.isEmpty_nil, if_pos rfl]
      constructor
      · rintro ⟨problem, raised⟩
        cases raised
      · intro stopped
        exact absurd (stopped a rfl) (problems.mp empty)
    · rw [if_neg fun none => empty (List.isEmpty_iff.mp none)]
      refine ⟨fun _ b same => ?_, fun _ => ⟨_, rfl⟩⟩
      cases same
      by_contra other
      exact empty (problems.mpr other)

end

end ChipEight.Opt
