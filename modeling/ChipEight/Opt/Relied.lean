import ChipEight.Opt.Fresh

/-! What the tail call relies on being refused.

`analyze` records a hazard where control gets to it, or where an access makes it one; of the
hazards the comment on the tail call names, `relocation_hazards` chooses the computed jumps and
the self-modifying writes, and leaves the deep stacks and the targets that are not resolved.
-/

set_option autoImplicit false

namespace ChipEight.Opt

open Asm (Text Token Mnemonic)

section
variable (U : Unicode)

/-- The hazards the tail call relies on being rejected: computed jumps, deep recursion,
self-modifying code and unresolved targets. -/
def Hazard.relied : Hazard → Bool
  | .computedJump _ => true
  | .deepStack _ => true
  | .selfModifying _ _ => true
  | .unresolvedJump _ => true
  | .unresolvedCall _ => true
  | _ => false

/-- Whenever `analyze` records such a hazard, `optimize_peepholes` raises. -/
def Refuses (statements : List Statement) (labels : Labels) : Prop :=
  ∀ a, analyze U labels statements = some a → (∃ h ∈ a.hazards, h.relied = true) →
    ∃ problem, optimizePeepholes U statements labels = .error problem

variable {U}

/-! ## Sources with new names -/

variable (U) in
/-- A reference by number to an address of the ROM at which no statement begins. -/
def Unbound (statements : List Statement) (labels : Labels) (s : Statement) : Prop :=
  NumericAddress U statements labels s ∧
    ∀ r ∈ statements, target U labels s ≠ some (r.pc : Int)

theorem Named.unnumbered {statements : List Statement} {labels : Labels} {made : List Nat}
    (names : Named U statements labels made) {s : Statement} (here : s ∈ statements) {v : Nat}
    (refers : Refers U made labels s v) : numericLast U (withLast s (nameOf labels v)) = false := by
  have none := (names.name here refers).2.1
  unfold numericLast
  show ((s.args.dropLast ++ [nameOf labels v]).getLast?.bind _).isSome = false
  rw [List.getLast?_concat, Option.bind_some, none]
  rfl

section
variable {text : Text} {statements : List Statement} {labels : Labels}
  (parsed : parseSource U text = .ok (statements, labels)) (fresh : Fresh U statements labels)
include parsed fresh

theorem rename_numeric {s : Statement} (here : s ∈ statements) :
    NumericAddress U (symbolize U statements labels).1 (symbolize U statements labels).2
        (rename U (generated U statements labels) labels s) ↔ Unbound U statements labels s := by
  have names := fresh.named parsed
  have renamed := fresh.renamed parsed
  obtain ⟨stop, follows⟩ := parseSource_follows parsed
  have payload : payloadEnd (symbolize U statements labels).1 = payloadEnd statements :=
    renamed.payload entry
  have same := rename_target names renamed here
  -- A statement that is not renamed keeps its number, and a renamed one has none.
  obtain ⟨rename, none⟩ | ⟨v, refers, rename⟩ :=
    @rename_cases U labels (generated U statements labels) s
  · rw [rename] at same ⊢
    unfold Unbound NumericAddress
    rw [same, payload]
    refine ⟨fun numeric => ⟨numeric, fun r inside isTarget => ?_⟩, And.left⟩
    obtain ⟨reference, number, value, isValue, low, high⟩ := numeric
    obtain rfl : value = r.pc := Option.some.inj (isValue.symm.trans isTarget)
    have op : (present s.op).isSome = true := by
      unfold isReference isOp at reference
      simp only [Bool.or_eq_true, Bool.and_eq_true, beq_iff_eq] at reference
      obtain (op | op) | ⟨⟨op, -⟩, -⟩ := reference <;>
      · rw [op]
        rfl
    refine none r.pc ⟨op, number, isTarget, (mem_generated follows).mpr ⟨?_, r, inside, rfl⟩⟩
    unfold namedByNumber
    simp only [Bool.and_eq_true, decide_eq_true_eq, List.any_eq_true, beq_iff_eq]
    exact ⟨by omega, s, here, ⟨reference, number⟩, isTarget⟩
  · rw [rename]
    constructor
    · intro numeric
      have number := numeric.2.1
      rw [names.unnumbered here refers] at number
      cases number
    · rintro ⟨-, apart⟩
      obtain ⟨r, inside, rfl⟩ := names.statement v refers.made
      exact absurd refers.target (apart r inside)

theorem stopped_iff {a : Analysis} (analyzed : analyze U labels statements = some a) :
    Stopped U (symbolize U statements labels).1 (symbolize U statements labels).2 a ↔
      (∃ s ∈ statements, s.op = some opOrg) ∨ (∃ s ∈ statements, Unbound U statements labels s) ∨
        ∃ h, Arises U labels statements a h ∧ Rejected a h := by
  have renamed := fresh.renamed parsed
  unfold Stopped
  refine or_congr ⟨?_, ?_⟩ (or_congr ⟨?_, ?_⟩ ?_)
  · rintro ⟨q, here, isOrg⟩
    obtain bare | ⟨s, inside, rfl⟩ := renamed.only q here
    · rw [bare] at isOrg
      cases isOrg
    · exact ⟨s, inside, (rename_fields s).1 ▸ isOrg⟩
  · rintro ⟨s, here, isOrg⟩
    exact ⟨_, renamed.copied s here, (rename_fields s).1.trans isOrg⟩
  · rintro ⟨q, here, numeric⟩
    obtain bare | ⟨s, inside, rfl⟩ := renamed.only q here
    · have reference := numeric.1
      unfold isReference isOp at reference
      rw [bare] at reference
      cases reference
    · exact ⟨s, inside, (rename_numeric parsed fresh inside).mp numeric⟩
  · rintro ⟨s, here, unbound⟩
    exact ⟨_, renamed.copied s here, (rename_numeric parsed fresh here).mpr unbound⟩
  · exact exists_congr fun h => and_congr_left' (mem_hazards analyzed)

end

/-! ## What is relied on -/

variable (U) in
/-- Nothing the tail call relies on being rejected is in the source, or something that is
rejected is in it too: `.ORG`, or, if the names are new, a number that stays, a computed jump,
a write to code, or an access with an unknown base only. -/
def Refusable (statements : List Statement) (labels : Labels) : Prop :=
  ∀ a, analyze U labels statements = some a →
    (∀ h, h.relied = true → ¬ Arises U labels statements a h) ∨
      (∃ s ∈ statements, s.op = some opOrg) ∨
        Fresh U statements labels ∧ ((∃ s ∈ statements, Unbound U statements labels s) ∨
          ∃ h, Arises U labels statements a h ∧ Rejected a h)

theorem symbolize_org {statements : List Statement} {labels : Labels}
    (org : ∃ s ∈ statements, s.op = some opOrg) :
    ∃ q ∈ (symbolize U statements labels).1, q.op = some opOrg := by
  obtain ⟨s, here, isOrg⟩ := org
  obtain ⟨labels', copied⟩ := @symbolizeFrom_copy U (generated U statements labels) labels labels
    statements s here
  exact ⟨_, copied, (symbolizeOperand_fields labels' s).2.2.1.trans isOrg⟩

end

/-- A jump through a register. -/
def computedJump : Text := "L: JP V0, L".toList

/-- A routine that calls itself without end. -/
def deepRecursion : Text := "L: CALL L
RET".toList

end ChipEight.Opt
