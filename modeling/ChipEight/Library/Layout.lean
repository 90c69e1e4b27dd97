import Mathlib.Algebra.GroupWithZero.Nat
import Mathlib.Algebra.BigOperators.Group.List.Basic
import Mathlib.Algebra.Order.Group.Nat

/-! Pieces laid out one after the other.

The offset of a piece is the sum of the sizes before it. Two layouts of lists of the same
length keep the distance of two pieces if every piece from the one up to the other keeps
its size.
-/

set_option autoImplicit false

namespace Layout

section
variable {α β : Type} (size : α → Nat)

def total (pieces : List α) : Nat := (pieces.map size).sum

/-- The offset of the piece with an index. -/
def offset (pieces : List α) (k : Nat) : Nat := total size (pieces.take k)

variable {size}

@[simp] theorem total_nil : total size [] = 0 := rfl

@[simp] theorem total_cons (x : α) (pieces : List α) :
    total size (x :: pieces) = size x + total size pieces := by
  simp [total]

@[simp] theorem total_append (xs ys : List α) :
    total size (xs ++ ys) = total size xs + total size ys := by
  simp [total]

theorem total_flatten (pieces : List (List α)) :
    total size pieces.flatten = total (total size) pieces := by
  induction pieces with
  | nil => rfl
  | cons xs rest ih => rw [List.flatten_cons, total_append, total_cons, ih]

@[simp] theorem offset_zero (pieces : List α) : offset size pieces 0 = 0 := rfl

@[simp] theorem offset_cons (x : α) (pieces : List α) (k : Nat) :
    offset size (x :: pieces) (k + 1) = size x + offset size pieces k := by
  simp [offset]

theorem offset_succ {pieces : List α} {k : Nat} {x : α} (here : pieces[k]? = some x) :
    offset size pieces (k + 1) = offset size pieces k + size x := by
  rw [offset, List.take_add_one, here, total_append, offset]
  rfl

theorem offset_mono (pieces : List α) {i j : Nat} (order : i ≤ j) :
    offset size pieces i ≤ offset size pieces j := by
  induction pieces generalizing i j with
  | nil => simp [offset]
  | cons x rest ih =>
    cases i with
    | zero => exact Nat.zero_le _
    | succ i =>
      cases j with
      | zero => exact absurd order (Nat.not_succ_le_zero i)
      | succ j =>
        rw [offset_cons, offset_cons]
        exact Nat.add_le_add_left (ih (Nat.le_of_succ_le_succ order)) _

/-- A piece ends before a later one begins. -/
theorem offset_next {pieces : List α} {i j : Nat} {x : α} (here : pieces[i]? = some x)
    (order : i < j) : offset size pieces i + size x ≤ offset size pieces j := by
  rw [← offset_succ here]
  exact offset_mono pieces order

/-- The distance is kept where the sizes are. -/
theorem offset_distance {size' : β → Nat} {xs : List α} {ys : List β}
    (length : ys.length = xs.length) {i j : Nat} (order : i ≤ j)
    (inside : j ≤ xs.length)
    (same : ∀ m x y, i ≤ m → m < j → xs[m]? = some x → ys[m]? = some y → size' y = size x) :
    offset size' ys j + offset size xs i = offset size' ys i + offset size xs j := by
  induction j, order using Nat.le_induction with
  | base => rfl
  | succ j order ih =>
    have kept := ih (by omega) fun m x y low high => same m x y low (by omega)
    have short : j < xs.length := inside
    have x := List.getElem?_eq_getElem short
    have y := List.getElem?_eq_getElem (length ▸ short : j < ys.length)
    have sizes := same j _ _ order (Nat.lt_succ_self j) x y
    rw [offset_succ x, offset_succ y]
    omega

end

end Layout
