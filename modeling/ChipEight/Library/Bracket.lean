import ChipEight.Library.Run
import Mathlib.Data.List.Basic

/-! Stacks of a running machine.

A stack that each step leaves alone, pushes one entry onto or pops one entry from is bracketed:
every entry of it was pushed by one step of the run, and nothing below it has changed since.
-/

set_option autoImplicit false

namespace Bracket

section
variable {S A : Type}

/-- What one step may do to a stack, the top of which is at the end of the list. -/
def Moves (old new : List A) : Prop :=
  new = old ∨ (∃ v, new = old ++ [v]) ∨ ∃ v, old = new ++ [v]

variable {step : S → Option S} {stack : S → List A} {start : S}

/-- The step of a run that pushed `v` onto `rest`, the last one to find `rest` on the stack. -/
structure Pushed (step : S → Option S) (stack : S → List A) (start : S) (n : Nat) (rest : List A)
    (v : A) (k : Nat) (c : S) : Prop where
  earlier : k < n
  reached : Run.after step k start = some c
  before : stack c = rest
  pushes : ∃ d, step c = some d ∧ stack d = rest ++ [v]
  since : ∀ j u, k < j → j ≤ n → Run.after step j start = some u → rest ++ [v] <+: stack u

theorem Pushed.later {n : Nat} {rest : List A} {v : A} {k : Nat} {c s : S}
    (pushed : Pushed step stack start n rest v k c)
    (next : Run.after step (n + 1) start = some s) (above : rest ++ [v] <+: stack s) :
    Pushed step stack start (n + 1) rest v k c := by
  refine { pushed with earlier := Nat.lt_succ_of_lt pushed.earlier, since := ?_ }
  intro j u after within run
  rcases Nat.lt_or_eq_of_le within with less | rfl
  · exact pushed.since j u after (Nat.le_of_lt_succ less) run
  · cases next.symm.trans run
    exact above

/-- The push of a popped entry still stands, so the push below it does. -/
theorem Pushed.below {n : Nat} {rest : List A} {v w : A} {k k' : Nat} {c c' s : S}
    (top : Pushed step stack start n (rest ++ [v]) w k c)
    (pushed : Pushed step stack start k rest v k' c')
    (next : Run.after step (n + 1) start = some s) (above : rest ++ [v] <+: stack s) :
    Pushed step stack start (n + 1) rest v k' c' := by
  refine ⟨Nat.lt_succ_of_lt (Nat.lt_trans pushed.earlier top.earlier), pushed.reached,
    pushed.before, pushed.pushes, ?_⟩
  intro j u after within run
  rcases Nat.lt_or_ge k j with later | sooner
  · rcases Nat.lt_or_eq_of_le within with less | rfl
    · exact (List.prefix_append _ _).trans
        (top.since j u later (Nat.le_of_lt_succ less) run)
    · cases next.symm.trans run
      exact above
  · exact pushed.since j u after sooner run

/-- Every entry above what the run started with was pushed by a step of it. -/
theorem matched {inv : S → Prop} (keeps : ∀ s t, inv s → step s = some t → inv t)
    (moves : ∀ s t, inv s → step s = some t → Moves (stack s) (stack t)) (holds : inv start)
    {rest : List A} {v : A} (low : (stack start).length ≤ rest.length) {n : Nat} {s : S}
    (run : Run.after step n start = some s) (here : stack s = rest ++ [v]) :
    ∃ k c, Pushed step stack start n rest v k c := by
  induction n using Nat.strongRecOn generalizing rest v s with
  | ind n ih =>
    cases n with
    | zero =>
      cases run
      rw [here, List.length_append, List.length_singleton] at low
      omega
    | succ n =>
      obtain ⟨u, reached, last⟩ := Run.after_succ.mp run
      have above : rest ++ [v] <+: stack s := here ▸ List.prefix_refl _
      rcases moves u s (Run.invariant keeps holds reached) last with same | ⟨w, up⟩ | ⟨w, down⟩
      · obtain ⟨k, c, pushed⟩ := ih n (Nat.lt_succ_self n) low reached (same ▸ here)
        exact ⟨k, c, pushed.later run above⟩
      · obtain ⟨before, -⟩ := List.append_inj' (up.symm.trans here) rfl
        refine ⟨n, u, Nat.lt_succ_self n, reached, before, ⟨s, last, here⟩, ?_⟩
        intro j t after within run'
        obtain rfl : j = n + 1 := Nat.le_antisymm within after
        cases run.symm.trans run'
        exact above
      · -- The entry popped last was pushed onto this very stack.
        have deep : (stack start).length ≤ (rest ++ [v]).length := by
          rw [List.length_append]
          exact Nat.le_add_right_of_le low
        obtain ⟨k, c, top⟩ := ih n (Nat.lt_succ_self n) deep reached (here ▸ down)
        obtain ⟨k', c', pushed⟩ :=
          ih k (Nat.lt_succ_of_lt top.earlier) low top.reached top.before
        exact ⟨k', c', top.below pushed run above⟩

end

end Bracket
