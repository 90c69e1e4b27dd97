import Mathlib.Algebra.Ring.Nat
import Mathlib.Data.List.Basic

/-! The value of a list of digits in a base, the first digit the highest.

A larger base makes a larger number of the same digits, unless there is at most one digit and
zeros in front of it.
-/

set_option autoImplicit false

namespace Numeral

/-- The digits continue a number worth `n`. -/
def value (base n : Nat) (digits : List Nat) : Nat := digits.foldl (fun n d => n * base + d) n

@[simp] theorem value_nil (base n : Nat) : value base n [] = n := rfl

@[simp] theorem value_cons (base n d : Nat) (digits : List Nat) :
    value base n (d :: digits) = value base (n * base + d) digits := rfl

section
variable {low high : Nat}

theorem value_lt (positive : 0 < low) (less : low ≤ high) {n m : Nat} (small : n < m)
    (digits : List Nat) : value low n digits < value high m digits := by
  induction digits generalizing n m with
  | nil => exact small
  | cons d digits ih =>
    rw [value_cons, value_cons]
    refine ih (Nat.add_lt_add_right ?_ d)
    calc
      n * low < m * low := Nat.mul_lt_mul_of_pos_right small positive
      _ ≤ m * high := Nat.mul_le_mul_left m less

/-- A number that has begun grows with the base. -/
theorem value_grows (positive : 0 < low) (less : low < high) {n d : Nat} (begun : 0 < n)
    (digits : List Nat) : value low n (d :: digits) < value high n (d :: digits) := by
  rw [value_cons, value_cons]
  apply value_lt positive (Nat.le_of_lt less)
  exact Nat.add_lt_add_right (Nat.mul_lt_mul_of_pos_left less begun) d

theorem value_eq_iff (positive : 0 < low) (less : low < high) (digits : List Nat) :
    value low 0 digits = value high 0 digits ↔ ∀ d ∈ digits.dropLast, d = 0 := by
  induction digits with
  | nil => simp
  | cons d digits ih =>
    cases digits with
    | nil => simp
    | cons e rest =>
      have first (base : Nat) : value base 0 (d :: e :: rest) = value base d (e :: rest) := by
        rw [value_cons, Nat.zero_mul, Nat.zero_add]
      rw [first, first, List.dropLast_cons_cons, List.forall_mem_cons, ← ih]
      rcases Nat.eq_zero_or_pos d with rfl | begun
      · exact ⟨fun same => ⟨rfl, same⟩, fun both => both.2⟩
      · constructor
        · intro same
          exact absurd same (Nat.ne_of_lt (value_grows positive less begun rest))
        · rintro ⟨rfl, -⟩
          exact absurd begun (Nat.lt_irrefl 0)

theorem value_zero_iff (positive : 0 < low) (n : Nat) (digits : List Nat) :
    value low n digits = 0 ↔ n = 0 ∧ ∀ d ∈ digits, d = 0 := by
  induction digits generalizing n with
  | nil => simp
  | cons d digits ih =>
    rw [value_cons, ih, List.forall_mem_cons, Nat.add_eq_zero_iff, Nat.mul_eq_zero, and_assoc]
    have nonzero : low ≠ 0 := Nat.ne_of_gt positive
    simp only [nonzero, or_false]

end

/-! ## Numerals that are printed -/

theorem digitChar_injective : ∀ n < 16, ∀ m < 16, n.digitChar = m.digitChar → n = m := by
  decide

theorem toDigits_injective {base : Nat} (two : 1 < base) (small : base ≤ 16) {n m : Nat}
    (same : Nat.toDigits base n = Nat.toDigits base m) : n = m := by
  induction n using Nat.strongRecOn generalizing m with
  | _ n ih =>
    have lower (k : Nat) : k % base < 16 :=
      Nat.lt_of_lt_of_le (Nat.mod_lt k (Nat.zero_lt_of_lt two)) small
    -- Numerals of one digit are shorter than the others, and those end in the remainder.
    rcases Nat.lt_or_ge n base with single | more
    · rcases Nat.lt_or_ge m base with single' | more'
      · rw [Nat.toDigits_of_lt_base single, Nat.toDigits_of_lt_base single'] at same
        apply digitChar_injective n (Nat.lt_of_lt_of_le single small) m
          (Nat.lt_of_lt_of_le single' small)
        exact List.singleton_inj.mp same
      · rw [Nat.toDigits_of_lt_base single, Nat.toDigits_of_base_le two more'] at same
        have lengths := congrArg List.length same
        rw [List.length_append, List.length_singleton] at lengths
        exact absurd lengths.symm (Nat.succ_ne_succ_iff.mpr (Nat.ne_of_gt Nat.length_toDigits_pos))
    · rcases Nat.lt_or_ge m base with single' | more'
      · rw [Nat.toDigits_of_base_le two more, Nat.toDigits_of_lt_base single'] at same
        have lengths := congrArg List.length same
        rw [List.length_append, List.length_singleton] at lengths
        exact absurd lengths (Nat.succ_ne_succ_iff.mpr (Nat.ne_of_gt Nat.length_toDigits_pos))
      · rw [Nat.toDigits_of_base_le two more, Nat.toDigits_of_base_le two more'] at same
        obtain ⟨front, last⟩ := List.append_inj' same rfl
        have begun : 0 < n := Nat.lt_of_lt_of_le (Nat.zero_lt_of_lt two) more
        have quotient := ih (n / base) (Nat.div_lt_self begun two) front
        have remainder := digitChar_injective _ (lower n) _ (lower m) (List.singleton_inj.mp last)
        rw [← Nat.div_add_mod n base, quotient, remainder, Nat.div_add_mod]

/-- A numeral of `w` places. -/
def padded (digit : Nat → Char) (base : Nat) : Nat → Nat → List Char
  | 0, _ => []
  | w + 1, n => padded digit base w (n / base) ++ [digit (n % base)]

theorem padded_injective {digit : Nat → Char} {base : Nat} (positive : 0 < base)
    (distinct : ∀ n < base, ∀ m < base, digit n = digit m → n = m) {w n m : Nat}
    (small : n < base ^ w) (small' : m < base ^ w)
    (same : padded digit base w n = padded digit base w m) : n = m := by
  induction w generalizing n m with
  | zero =>
    rw [Nat.pow_zero, Nat.lt_one_iff] at small small'
    rw [small, small']
  | succ w ih =>
    obtain ⟨front, last⟩ := List.append_inj' same rfl
    have quotient := ih (Nat.div_lt_of_lt_mul (Nat.pow_succ' ▸ small))
      (Nat.div_lt_of_lt_mul (Nat.pow_succ' ▸ small')) front
    have remainder := distinct _ (Nat.mod_lt n positive) _ (Nat.mod_lt m positive)
      (List.singleton_inj.mp last)
    rw [← Nat.div_add_mod n base, quotient, remainder, Nat.div_add_mod]

theorem mem_padded {digit : Nat → Char} {base w n : Nat} {c : Char} (positive : 0 < base)
    (here : c ∈ padded digit base w n) : ∃ d < base, c = digit d := by
  induction w generalizing n with
  | zero => cases here
  | succ w ih =>
    obtain earlier | last := List.mem_append.mp here
    · exact ih earlier
    · exact ⟨n % base, Nat.mod_lt n positive, List.mem_singleton.mp last⟩

end Numeral
