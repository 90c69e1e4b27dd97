import Mathlib.Logic.Basic

/-! Loops that poll until they have what they wait for.

Nothing bounds such a loop, so it is given fuel. What it ends with does not depend on the
fuel: it is the first of the states behind its passes that it was waiting for.
-/

set_option autoImplicit false

namespace Polling

variable {σ α β : Type}

/-- Test before every pass, and count the passes. -/
def loop (ready : σ → Bool) (pass : Nat → σ → σ) : Nat → Nat → σ → Option (Nat × σ)
  | 0, _, _ => none
  | fuel + 1, passes, s =>
    if ready s then some (passes, s) else loop ready pass fuel (passes + 1) (pass passes s)

/-- The state behind passes that do not test. -/
def after (pass : Nat → σ → σ) (s : σ) : Nat → σ
  | 0 => s
  | n + 1 => pass n (after pass s n)

/-- Some fuel is enough. -/
def Ends (wait : Nat → Option α) (a : α) : Prop := ∃ fuel, wait fuel = some a

theorem Ends.map {wait : Nat → Option α} {f : α → β} {b : β} :
    Ends (fun fuel => (wait fuel).map f) b ↔ ∃ a, Ends wait a ∧ f a = b := by
  constructor
  · rintro ⟨fuel, ended⟩
    obtain ⟨a, here, same⟩ := Option.map_eq_some_iff.mp ended
    exact ⟨a, ⟨fuel, here⟩, same⟩
  · rintro ⟨a, ⟨fuel, here⟩, same⟩
    exact ⟨fuel, Option.map_eq_some_iff.mpr ⟨a, here, same⟩⟩

section
variable {ready : σ → Bool} {pass : Nat → σ → σ} {s : σ}

theorem loop_first {fuel passes n : Nat} {t : σ}
    (ended : loop ready pass fuel passes (after pass s passes) = some (n, t)) :
    passes ≤ n ∧ t = after pass s n ∧ ready t = true ∧
      ∀ k, passes ≤ k → k < n → ready (after pass s k) = false := by
  induction fuel generalizing passes with
  | zero => cases ended
  | succ fuel ih =>
    rw [loop] at ended
    cases here : ready (after pass s passes) with
    | true =>
      rw [here, if_pos rfl] at ended
      cases ended
      exact ⟨Nat.le_refl _, rfl, here, fun k low high => absurd high (Nat.not_lt.mpr low)⟩
    | false =>
      rw [here, if_neg Bool.false_ne_true] at ended
      obtain ⟨less, same, found, before⟩ := ih ended
      refine ⟨Nat.le_of_succ_le less, same, found, fun k low high => ?_⟩
      rcases Nat.eq_or_lt_of_le low with rfl | low
      · exact here
      · exact before k low high

theorem loop_reaches {n passes : Nat} (found : ready (after pass s (passes + n)) = true)
    (before : ∀ k < n, ready (after pass s (passes + k)) = false) :
    loop ready pass (n + 1) passes (after pass s passes) =
      some (passes + n, after pass s (passes + n)) := by
  induction n generalizing passes with
  | zero => exact if_pos found
  | succ n ih =>
    have here := before 0 (Nat.succ_pos n)
    rw [Nat.add_zero] at here
    rw [loop, here, if_neg Bool.false_ne_true]
    rw [show passes + (n + 1) = passes + 1 + n by omega] at found ⊢
    refine ih found fun k less => ?_
    rw [show passes + 1 + k = passes + (k + 1) by omega]
    exact before (k + 1) (Nat.succ_lt_succ less)

/-- The loop ends at the first state it waits for. -/
theorem ends_iff {n : Nat} {t : σ} :
    Ends (fun fuel => loop ready pass fuel 0 s) (n, t) ↔
      t = after pass s n ∧ ready t = true ∧ ∀ k < n, ready (after pass s k) = false := by
  constructor
  · rintro ⟨fuel, ended⟩
    obtain ⟨-, same, found, before⟩ := loop_first ended
    exact ⟨same, found, fun k => before k (Nat.zero_le k)⟩
  · rintro ⟨rfl, found, before⟩
    have reached := @loop_reaches _ ready pass s n 0
    rw [Nat.zero_add] at reached
    refine ⟨n + 1, reached found fun k less => ?_⟩
    rw [Nat.zero_add]
    exact before k less

end

end Polling
