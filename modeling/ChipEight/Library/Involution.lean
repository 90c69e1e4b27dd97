import Mathlib.Data.List.Basic

/-! Actions that commute and undo themselves.

Of a sequence of such actions only the parity matters: how often each was taken, modulo two.
-/

set_option autoImplicit false

namespace Involution

variable {α β : Type} {act : β → α → β}

/-- Each action undoes itself, and any two can be exchanged. -/
structure Commuting (act : β → α → β) : Prop where
  twice : ∀ b x, act (act b x) x = b
  comm : ∀ b x y, act (act b x) y = act (act b y) x

theorem Commuting.foldl_perm (commuting : Commuting act) {xs ys : List α} (perm : xs.Perm ys)
    (b : β) : xs.foldl act b = ys.foldl act b :=
  perm.foldl_eq' (fun x _ y _ b => commuting.comm b x y) b

variable [DecidableEq α]

/-- Where every action is taken an even number of times nothing is left of them. -/
theorem Commuting.foldl_even (commuting : Commuting act) {xs : List α}
    (even : ∀ x, xs.count x % 2 = 0) (b : β) : xs.foldl act b = b := by
  -- by induction on the length: a pair of equal actions is brought to the front and goes
  induction isLength : xs.length using Nat.strongRecOn generalizing xs with
  | ind n ih =>
    cases xs with
    | nil => rfl
    | cons x rest =>
      have again : x ∈ rest := by
        have odd := even x
        rw [List.count_cons_self] at odd
        apply List.count_pos_iff.mp
        omega
      have pair : rest.Perm (x :: rest.erase x) := List.perm_cons_erase again
      have shorter : (rest.erase x).length < n := by
        have length := pair.length_eq
        simp only [List.length_cons] at length isLength
        omega
      have stillEven (y : α) : (rest.erase x).count y % 2 = 0 := by
        have counted := even y
        rw [List.count_cons, pair.count_eq, List.count_cons] at counted
        split at counted <;> omega
      rw [commuting.foldl_perm (pair.cons x), List.foldl_cons, List.foldl_cons, commuting.twice]
      exact ih _ shorter stillEven rfl

/-- Two sequences of actions with the same parities do the same. -/
theorem Commuting.foldl_parity (commuting : Commuting act) {xs ys : List α}
    (same : ∀ x, xs.count x % 2 = ys.count x % 2) (b : β) : xs.foldl act b = ys.foldl act b := by
  have undone : (ys ++ ys).foldl act (xs.foldl act b) = xs.foldl act b := by
    apply commuting.foldl_even
    intro x
    rw [List.count_append]
    omega
  have none : (xs ++ ys).foldl act b = b := by
    apply commuting.foldl_even
    intro x
    have parity := same x
    rw [List.count_append]
    omega
  rw [List.foldl_append] at undone none
  rw [← undone, none]

end Involution
