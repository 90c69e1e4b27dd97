import ChipEight.Library.Run

/-! Programs that refuse an access outside its bounds.

A guarded program is its plain counterpart with a test in front of every access; a test
that fails ends it with a fault. The rules say that a guarded loop has no fault and the
result of the plain one, when this is so of its body wherever an invariant of the plain
loop holds.
-/

set_option autoImplicit false

namespace Guarded

section
variable {F S A : Type}

/-- The value behind a test that succeeded. -/
@[simp] theorem ok_bind {B : Type} (a : A) (f : A → Except F B) : (Except.ok a >>= f) = f a := rfl

theorem mapM_ok {B : Type} {guarded : A → Except F B} {plain : A → B} {as : List A}
    (body : ∀ a ∈ as, guarded a = .ok (plain a)) : as.mapM guarded = .ok (as.map plain) := by
  induction as with
  | nil => rfl
  | cons a as ih =>
    rw [List.mapM_cons, body a List.mem_cons_self, ok_bind,
      ih fun a later => body a (List.mem_cons_of_mem _ later), ok_bind]
    rfl

/-- The rule of the `for` loop. -/
theorem foldlM_invariant {guarded : S → A → Except F S} {plain : S → A → S} (inv : S → Prop)
    {as : List A} (keeps : ∀ s, ∀ a ∈ as, inv s → inv (plain s a))
    (body : ∀ s, ∀ a ∈ as, inv s → guarded s a = .ok (plain s a)) {s : S} (start : inv s) :
    as.foldlM guarded s = .ok (as.foldl plain s) := by
  induction as generalizing s with
  | nil => rfl
  | cons a as ih =>
    rw [List.foldlM_cons, body s a List.mem_cons_self start, ok_bind, List.foldl_cons]
    exact ih (fun s a later => keeps s a (List.mem_cons_of_mem _ later))
      (fun s a later => body s a (List.mem_cons_of_mem _ later))
      (keeps s a List.mem_cons_self start)

theorem foldlM_ok {guarded : S → A → Except F S} {plain : S → A → S} {as : List A}
    (body : ∀ s, ∀ a ∈ as, guarded s a = .ok (plain s a)) (s : S) :
    as.foldlM guarded s = .ok (as.foldl plain s) :=
  foldlM_invariant (fun _ => True) (fun _ _ _ _ => trivial) (fun s a mem _ => body s a mem) trivial

/-- The run of a guarded machine. -/
def finish (step : S → Except F (Option S)) : Nat → S → Except F S
  | 0, s => .ok s
  | n + 1, s => do
    match ← step s with
    | none => .ok s
    | some t => finish step n t

theorem finish_ok {guarded : S → Except F (Option S)} {plain : S → Option S} {inv : S → Prop}
    (keeps : ∀ s t, inv s → plain s = some t → inv t)
    (body : ∀ s, inv s → guarded s = .ok (plain s)) (n : Nat) {s : S} (start : inv s) :
    finish guarded n s = .ok (Run.finish plain n s) := by
  induction n generalizing s with
  | zero => rfl
  | succ n ih =>
    rw [finish, body s start, ok_bind, Run.finish]
    cases stepped : plain s with
    | none => rfl
    | some t => exact ih (keeps s t start stepped)

end

end Guarded
