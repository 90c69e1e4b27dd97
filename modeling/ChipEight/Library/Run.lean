import Mathlib.Init

/-! Runs of a deterministic machine given by a partial step function.

`after step n s` is the state after exactly `n` steps; `none` says that the machine
stopped earlier. The rules below reduce a statement about runs to one about a
single step: an invariant, a quantity that never shrinks, and a forward simulation
in which one concrete step may match any number of abstract ones.
-/

set_option autoImplicit false

namespace Run

section
variable {S : Type} {step : S → Option S}

def after (step : S → Option S) : Nat → S → Option S
  | 0, s => some s
  | n + 1, s => (after step n s).bind step

theorem after_succ {n : Nat} {s t : S} :
    after step (n + 1) s = some t ↔ ∃ u, after step n s = some u ∧ step u = some t := by
  simp only [after, Option.bind_eq_some_iff]

theorem after_add (m n : Nat) (s : S) :
    after step (m + n) s = (after step m s).bind (after step n) := by
  induction n with
  | zero => cases h : after step m s <;> simp [after]
  | succ n ih =>
    rw [← Nat.add_assoc, after, ih]
    cases h : after step m s <;> simp [after]

theorem after_head (n : Nat) (s : S) :
    after step (n + 1) s = (step s).bind (after step n) := by
  rw [Nat.add_comm, after_add]
  rfl

/-- A run passes through a state at every earlier time. -/
theorem after_le {m n : Nat} {s t : S} (within : m ≤ n) (run : after step n s = some t) :
    ∃ u, after step m s = some u ∧ after step (n - m) u = some t := by
  rw [← Nat.add_sub_of_le within, after_add, Option.bind_eq_some_iff] at run
  exact run

theorem after_trans {m n : Nat} {s t u : S} (first : after step m s = some t)
    (second : after step n t = some u) : after step (m + n) s = some u := by
  rw [after_add, first]
  exact second

/-- No run is longer than one to where the machine stops. -/
theorem stops_last {m n : Nat} {s t u : S} (first : after step m s = some t)
    (stops : step t = none) (second : after step n s = some u) : n ≤ m := by
  apply Nat.le_of_not_lt
  intro order
  obtain ⟨v, reached, -⟩ := after_le (Nat.succ_le_of_lt order) second
  obtain ⟨w, here, stepped⟩ := after_succ.mp reached
  cases first.symm.trans here
  cases stops.symm.trans stepped

/-- A machine stops in one state only. -/
theorem stops_unique {m n : Nat} {s t u : S} (first : after step m s = some t)
    (stops : step t = none) (second : after step n s = some u) (stops' : step u = none) : t = u := by
  obtain rfl : m = n :=
    Nat.le_antisymm (stops_last second stops' first) (stops_last first stops second)
  exact Option.some.inj (first.symm.trans second)

/-- The states a machine can reach from `s`. -/
def Reaches (step : S → Option S) (s t : S) : Prop := ∃ n, after step n s = some t

theorem invariant {inv : S → Prop} (keeps : ∀ s t, inv s → step s = some t → inv t)
    {n : Nat} {s t : S} (start : inv s) (run : after step n s = some t) : inv t := by
  induction n generalizing t with
  | zero => cases run; exact start
  | succ n ih =>
    obtain ⟨u, earlier, last⟩ := after_succ.mp run
    exact keeps u t (ih earlier) last

theorem Reaches.invariant {inv : S → Prop} (keeps : ∀ s t, inv s → step s = some t → inv t)
    {s t : S} (start : inv s) (reached : Reaches step s t) : inv t := by
  obtain ⟨_, run⟩ := reached
  exact Run.invariant keeps start run

/-- The state a machine stops in, or the one `n` steps lead to. -/
def finish (step : S → Option S) : Nat → S → S
  | 0, s => s
  | n + 1, s => match step s with
    | none => s
    | some t => finish step n t

theorem finish_reaches (n : Nat) (s : S) : Reaches step s (finish step n s) := by
  induction n generalizing s with
  | zero => exact ⟨0, rfl⟩
  | succ n ih =>
    cases stepped : step s with
    | none =>
      refine ⟨0, ?_⟩
      simp only [finish, stepped, after]
    | some t =>
      obtain ⟨k, run⟩ := ih t
      refine ⟨k + 1, ?_⟩
      simpa only [after_head, stepped, Option.bind_some, finish] using run

theorem finish_eq {k n : Nat} {s t : S} (run : after step k s = some t) (stops : step t = none)
    (within : k ≤ n) : finish step n s = t := by
  induction n generalizing k s with
  | zero =>
    obtain rfl := Nat.le_zero.mp within
    cases run
    rfl
  | succ n ih =>
    cases k with
    | zero =>
      cases run
      simp only [finish, stops]
    | succ k =>
      rw [after_head, Option.bind_eq_some_iff] at run
      obtain ⟨u, first, rest⟩ := run
      simp only [finish, first]
      exact ih rest (Nat.le_of_succ_le_succ within)

theorem finish_after (n : Nat) (s : S) : ∃ k ≤ n, after step k s = some (finish step n s) := by
  induction n generalizing s with
  | zero => exact ⟨0, Nat.le_refl 0, rfl⟩
  | succ n ih =>
    cases stepped : step s with
    | none =>
      refine ⟨0, Nat.zero_le _, ?_⟩
      simp only [finish, stepped, after]
    | some t =>
      obtain ⟨k, within, run⟩ := ih t
      refine ⟨k + 1, Nat.succ_le_succ within, ?_⟩
      simpa only [after_head, stepped, Option.bind_some, finish] using run

/-- A measure that every step from a state of the invariant lowers says how long it takes
a machine to stop. -/
theorem finish_stops_inv {inv : S → Prop} {μ : S → Nat}
    (keeps : ∀ s t, inv s → step s = some t → inv t)
    (lowers : ∀ s t, inv s → step s = some t → μ t < μ s) {n : Nat} {s : S} (start : inv s)
    (enough : μ s ≤ n) : step (finish step n s) = none := by
  induction n generalizing s with
  | zero =>
    rw [Option.eq_none_iff_forall_ne_some]
    intro t stepped
    exact absurd (Nat.lt_of_lt_of_le (lowers s t start stepped) enough) (Nat.not_lt_zero _)
  | succ n ih =>
    cases stepped : step s with
    | none => simp only [finish, stepped]
    | some t =>
      simp only [finish, stepped]
      exact ih (keeps s t start stepped)
        (Nat.le_of_lt_succ (Nat.lt_of_lt_of_le (lowers s t start stepped) enough))

theorem finish_stops {μ : S → Nat} (lowers : ∀ s t, step s = some t → μ t < μ s) {n : Nat}
    {s : S} (enough : μ s ≤ n) : step (finish step n s) = none :=
  finish_stops_inv (fun _ _ _ _ => True.intro) (fun s t _ => lowers s t) True.intro enough

theorem finish_invariant {inv : S → Prop} (keeps : ∀ s t, inv s → step s = some t → inv t)
    {n : Nat} {s : S} (start : inv s) : inv (finish step n s) :=
  (finish_reaches n s).invariant keeps start

/-- A quantity no step decreases is no smaller at the end of a run. -/
theorem measure_le {μ : S → Nat} (grows : ∀ s t, step s = some t → μ s ≤ μ t)
    {n : Nat} {s t : S} (run : after step n s = some t) : μ s ≤ μ t :=
  invariant (fun u v low last => Nat.le_trans low (grows u v last)) (Nat.le_refl (μ s)) run

/-- A quantity every step raises by one counts the steps. -/
theorem measure_eq {μ : S → Nat} (counts : ∀ s t, step s = some t → μ t = μ s + 1)
    {n : Nat} {s t : S} (run : after step n s = some t) : μ t = μ s + n := by
  induction n generalizing t with
  | zero => cases run; rfl
  | succ n ih =>
    obtain ⟨u, earlier, last⟩ := after_succ.mp run
    rw [counts u t last, ih earlier, Nat.add_assoc]

end

section
variable {C A : Type}

/-- A machine seen through `f` finishes where the machine does. -/
theorem finish_map {concrete : C → Option C} {abstract : A → Option A} {f : C → A}
    (same : ∀ c, abstract (f c) = (concrete c).map f) (n : Nat) (c : C) :
    f (finish concrete n c) = finish abstract n (f c) := by
  induction n generalizing c with
  | zero => rfl
  | succ n ih =>
    have step := same c
    cases stepped : concrete c with
    | none =>
      rw [stepped] at step
      simp only [finish, stepped, step, Option.map_none]
    | some c' =>
      rw [stepped] at step
      simp only [finish, stepped, step, Option.map_some, ih]

/-- A forward simulation along the concrete runs that stay inside `ok`. The side
condition is closed backwards, so it need only be known of the last state. -/
structure Simulation (concrete : C → Option C) (abstract : A → Option A)
    (ok : C → Prop) (R : C → A → Prop) : Prop where
  backwards : ∀ c c', concrete c = some c' → ok c' → ok c
  simulate : ∀ c c' a, R c a → concrete c = some c' → ok c' →
    ∃ k a', after abstract k a = some a' ∧ R c' a'

theorem Simulation.run {concrete : C → Option C} {abstract : A → Option A}
    {ok : C → Prop} {R : C → A → Prop} (sim : Simulation concrete abstract ok R)
    {n : Nat} {c c' : C} {a : A} (related : R c a) (run : after concrete n c = some c')
    (safe : ok c') : ∃ k a', after abstract k a = some a' ∧ R c' a' := by
  induction n generalizing c' with
  | zero => cases run; exact ⟨0, a, rfl, related⟩
  | succ n ih =>
    obtain ⟨u, earlier, last⟩ := after_succ.mp run
    obtain ⟨k, b, reached, relatedU⟩ := ih earlier (sim.backwards u c' last safe)
    obtain ⟨k', a', further, relatedC⟩ := sim.simulate u c' b relatedU last safe
    exact ⟨k + k', a', after_trans reached further, relatedC⟩

/-- Machines whose steps keep a relation and stop together keep it over their runs. -/
theorem lockstep {concrete : C → Option C} {abstract : A → Option A} {R : C → A → Prop}
    (keeps : ∀ c a, R c a → Option.Rel R (concrete c) (abstract a)) {c : C} {a : A}
    (related : R c a) (n : Nat) : Option.Rel R (after concrete n c) (after abstract n a) := by
  induction n with
  | zero => exact .some related
  | succ n ih =>
    rw [after, after]
    generalize after concrete n c = reached at ih ⊢
    generalize after abstract n a = reached' at ih ⊢
    cases ih with
    | none => exact .none
    | some relatedN => exact keeps _ _ relatedN

/-- A simulation in which a concrete step matches one abstract step or, where
`stutters` allows it, none. -/
structure Stuttering (concrete : C → Option C) (abstract : A → Option A)
    (ok stutters : C → Prop) (R : C → A → Prop) : Prop where
  simulate : ∀ c c' a, R c a → ok c → concrete c = some c' →
    (stutters c ∧ R c' a) ∨ ∃ a', abstract a = some a' ∧ R c' a'

/-- The abstract run keeps pace: `pace k` of its steps match the first `k` concrete
steps, and it stands still only where the simulation stutters. -/
theorem Stuttering.pace {concrete : C → Option C} {abstract : A → Option A}
    {ok stutters : C → Prop} {R : C → A → Prop}
    (sim : Stuttering concrete abstract ok stutters R) {c c' : C} {a : A} (related : R c a)
    {n : Nat} (run : after concrete n c = some c')
    (fine : ∀ k < n, ∀ u, after concrete k c = some u → ok u) :
    ∃ pace : Nat → Nat, pace 0 = 0 ∧
      (∀ k < n, pace (k + 1) = pace k + 1 ∨
        pace (k + 1) = pace k ∧ ∀ u, after concrete k c = some u → stutters u) ∧
      ∀ k ≤ n, ∀ u, after concrete k c = some u →
        ∃ b, after abstract (pace k) a = some b ∧ R u b := by
  induction n generalizing c' with
  | zero =>
    refine ⟨fun _ => 0, rfl, fun k before => absurd before (Nat.not_lt_zero k), ?_⟩
    intro k within u reached
    obtain rfl := Nat.le_zero.mp within
    cases reached
    exact ⟨a, rfl, related⟩
  | succ n ih =>
    obtain ⟨u, earlier, last⟩ := after_succ.mp run
    obtain ⟨pace, start, steps, matched⟩ := ih earlier fun k before =>
      fine k (Nat.lt_succ_of_lt before)
    obtain ⟨b, reached, relatedU⟩ := matched n (Nat.le_refl n) u earlier
    -- The pace so far is kept, and its next value is chosen from the last step.
    have extend (next : Nat) (choice : next = pace n + 1 ∨ next = pace n ∧ stutters u)
        (lands : ∃ b, after abstract next a = some b ∧ R c' b) :
        ∃ pace' : Nat → Nat, pace' 0 = 0 ∧
          (∀ k < n + 1, pace' (k + 1) = pace' k + 1 ∨
            pace' (k + 1) = pace' k ∧ ∀ u, after concrete k c = some u → stutters u) ∧
          ∀ k ≤ n + 1, ∀ u, after concrete k c = some u →
            ∃ b, after abstract (pace' k) a = some b ∧ R u b := by
      have old (k : Nat) (within : k ≤ n) : (if k ≤ n then pace k else next) = pace k :=
        if_pos within
      have new : (if n + 1 ≤ n then pace (n + 1) else next) = next :=
        if_neg (Nat.not_succ_le_self n)
      refine ⟨fun k => if k ≤ n then pace k else next, start, ?_, ?_⟩
      · intro k before
        obtain earlierStep | rfl := Nat.lt_succ_iff_lt_or_eq.mp before
        · dsimp only
          rw [old k (Nat.le_of_lt earlierStep), old (k + 1) earlierStep]
          exact steps k earlierStep
        · dsimp only
          rw [old k (Nat.le_refl k), new]
          obtain moved | ⟨stood, still⟩ := choice
          · exact .inl moved
          · refine .inr ⟨stood, fun v same => ?_⟩
            rw [earlier] at same
            cases same
            exact still
      · intro k within v same
        obtain small | rfl := Nat.le_succ_iff.mp within
        · dsimp only
          rw [old k small]
          exact matched k small v same
        · dsimp only
          rw [new]
          rw [run] at same
          cases same
          exact lands
    obtain ⟨still, relatedC⟩ | ⟨b', moved, relatedC⟩ :=
      sim.simulate u c' b relatedU (fine n (Nat.lt_succ_self n) u earlier) last
    · exact extend (pace n) (.inr ⟨rfl, still⟩) ⟨b, reached, relatedC⟩
    · exact extend (pace n + 1) (.inl rfl) ⟨b', after_succ.mpr ⟨b, reached, moved⟩, relatedC⟩

end

end Run
