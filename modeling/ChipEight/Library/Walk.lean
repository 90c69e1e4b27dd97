import Mathlib.Algebra.GroupWithZero.Nat
import Mathlib.Order.WellFounded
import Mathlib.Algebra.BigOperators.Group.List.Basic
import Mathlib.Data.List.Induction

/-! Walks in a labelled transition system.

A walk carries the labels it passed, so that a rule may speak of what has been passed so
far: an invariant of the labels and the state they lead to, a supply that the labels use
up, and a rank that falls with every label of a kind, which such labels alone can not do
round a cycle or for ever.
-/

set_option autoImplicit false

/-- The labels `ls` lead from one state to another. -/
inductive Walk {S L : Type} (moves : S → L → S → Prop) : S → List L → S → Prop where
  | nil {s : S} : Walk moves s [] s
  | snoc {s t u : S} {ls : List L} {l : L} (walk : Walk moves s ls t) (last : moves t l u) :
      Walk moves s (ls ++ [l]) u

namespace Walk

section
variable {S L : Type} {moves : S → L → S → Prop}

theorem single {s t : S} {l : L} (move : moves s l t) : Walk moves s [l] t :=
  .snoc .nil move

theorem append {s t u : S} {ls ms : List L} (first : Walk moves s ls t)
    (second : Walk moves t ms u) : Walk moves s (ls ++ ms) u := by
  induction second with
  | nil =>
    rw [List.append_nil]
    exact first
  | snoc _ last ih =>
    rw [← List.append_assoc]
    exact .snoc ih last

theorem cons {s t u : S} {l : L} {ls : List L} (first : moves s l t)
    (rest : Walk moves t ls u) : Walk moves s (l :: ls) u :=
  append (single first) rest

theorem nil_iff {s t : S} : Walk moves s [] t ↔ s = t := by
  constructor
  · generalize none : ([] : List L) = ls
    intro walk
    cases walk with
    | nil => rfl
    | snoc _ _ => simp at none
  · rintro rfl
    exact .nil

theorem split {s u : S} {ls ms : List L} (walk : Walk moves s (ls ++ ms) u) :
    ∃ t, Walk moves s ls t ∧ Walk moves t ms u := by
  induction ms using List.reverseRecOn generalizing u with
  | nil =>
    rw [List.append_nil] at walk
    exact ⟨u, walk, .nil⟩
  | append_singleton ms m ih =>
    generalize same : ls ++ (ms ++ [m]) = whole at walk
    cases walk with
    | nil => simp at same
    | snoc before last =>
      rw [← List.append_assoc] at same
      obtain ⟨rfl, one⟩ := List.append_inj' same rfl
      obtain rfl := (List.cons.inj one).1
      obtain ⟨t, first, second⟩ := ih before
      exact ⟨t, first, .snoc second last⟩

theorem uncons {s u : S} {l : L} {ls : List L} (walk : Walk moves s (l :: ls) u) :
    ∃ t, moves s l t ∧ Walk moves t ls u := by
  obtain ⟨t, first, rest⟩ := @split S L moves s u [l] ls walk
  generalize one : [l] = labels at first
  cases first with
  | nil => cases one
  | @snoc v _ before _ start last =>
    obtain ⟨empty, same⟩ := List.append_inj' ((List.nil_append [l]).trans one) rfl
    obtain rfl := (List.cons.inj same).1
    subst empty
    obtain rfl := nil_iff.mp start
    exact ⟨t, last, rest⟩

/-- An invariant of the labels passed and the state they lead to. -/
theorem invariant {I : List L → S → Prop}
    (keeps : ∀ ls s l t, I ls s → moves s l t → I (ls ++ [l]) t) {s t : S} {before ls : List L}
    (start : I before s) (walk : Walk moves s ls t) : I (before ++ ls) t := by
  induction walk with
  | nil =>
    rw [List.append_nil]
    exact start
  | snoc _ last ih =>
    rw [← List.append_assoc]
    exact keeps _ _ _ _ ih last

end

/-! ## What labels of a kind use up

The rules ask for a step only from states in `inv`, which every step keeps. -/

section
variable {S L : Type} {moves : S → L → S → Prop} (inv : S → Prop) (kind : L → Prop)

/-- A supply that covers the cost of every label covers the cost of a walk. -/
theorem supply (cost : L → Nat) (left : S → Nat)
    (keeps : ∀ s l t, inv s → moves s l t → inv t)
    (pays : ∀ s l t, inv s → moves s l t → kind l → cost l + left t ≤ left s)
    {s t : S} {ls : List L} (start : inv s) (walk : Walk moves s ls t) (all : ∀ l ∈ ls, kind l) :
    inv t ∧ (ls.map cost).sum + left t ≤ left s := by
  induction walk with
  | nil => exact ⟨start, by simp⟩
  | snoc _ last ih =>
    obtain ⟨before, here⟩ := List.forall_mem_append.mp all
    obtain ⟨good, paid⟩ := ih before
    have price := pays _ _ _ good last (here _ List.mem_cons_self)
    refine ⟨keeps _ _ _ good last, ?_⟩
    rw [List.map_append, List.sum_append, List.map_singleton, List.sum_singleton]
    omega

variable {R : Type} [Preorder R] (rank : S → R)

theorem falls (keeps : ∀ s l t, inv s → moves s l t → inv t)
    (lowers : ∀ s l t, inv s → moves s l t → kind l → rank t < rank s)
    {s t : S} {ls : List L} (start : inv s) (walk : Walk moves s ls t) (all : ∀ l ∈ ls, kind l)
    (moved : ls ≠ []) : inv t ∧ rank t < rank s := by
  induction walk with
  | nil => exact absurd rfl moved
  | @snoc u v ls l before last ih =>
    obtain ⟨earlier, here⟩ := List.forall_mem_append.mp all
    have step (good : inv u) : inv v ∧ rank v < rank u :=
      ⟨keeps _ _ _ good last, lowers _ _ _ good last (here _ List.mem_cons_self)⟩
    by_cases none : ls = []
    · subst none
      obtain rfl := nil_iff.mp before
      exact step start
    · obtain ⟨good, lower⟩ := ih earlier none
      exact ⟨(step good).1, (step good).2.trans lower⟩

/-- A cycle passes a label of another kind. -/
theorem cycle_meets (keeps : ∀ s l t, inv s → moves s l t → inv t)
    (lowers : ∀ s l t, inv s → moves s l t → kind l → rank t < rank s)
    {s : S} {ls : List L} (start : inv s) (cycle : Walk moves s ls s) (moved : ls ≠ []) :
    ∃ l ∈ ls, ¬ kind l := by
  by_contra all
  simp only [not_exists, not_and, not_not] at all
  exact lt_irrefl _ (falls inv kind rank keeps lowers start cycle all moved).2

/-- Labels of the kind do not go on for ever. -/
theorem not_forever [WellFoundedLT R] (keeps : ∀ s l t, inv s → moves s l t → inv t)
    (lowers : ∀ s l t, inv s → moves s l t → kind l → rank t < rank s)
    {state : Nat → S} {label : Nat → L} (start : inv (state 0))
    (run : ∀ n, moves (state n) (label n) (state (n + 1))) : ∃ n, ¬ kind (label n) := by
  by_contra all
  simp only [not_exists, not_not] at all
  have good (n : Nat) : inv (state n) := by
    induction n with
    | zero => exact start
    | succ n ih => exact keeps _ _ _ ih (run n)
  obtain ⟨n, stays⟩ := WellFounded.not_rel_apply_succ (r := fun x y : R => x < y)
    fun n => rank (state n)
  exact stays (lowers _ _ _ (good n) (run n) (all n))

end

end Walk
