import ChipEight.Library.Run

/-! What is seen of a run.

Some states of a machine show something when they are left. A simulation in which a concrete
step matches one abstract step that shows the same, or none where it shows nothing, keeps
what is seen; where a rank falls at the steps that match nothing, the two runs, as long as
the concrete one goes on, show the same in the end.
-/

set_option autoImplicit false

namespace Run

section
variable {S L : Type} (step : S → Option S) (label : S → Option L)

/-- What is seen in the first steps of a run, in order. -/
def seen : Nat → S → List L
  | 0, _ => []
  | n + 1, s => seen n s ++ ((after step n s).bind label).toList

variable {step label}

theorem seen_succ {n : Nat} {s t : S} (run : after step n s = some t) :
    seen step label (n + 1) s = seen step label n s ++ (label t).toList := by
  rw [seen, run]
  rfl

end

section
variable {C A L : Type}

theorem after_map {concrete : C → Option C} {abstract : A → Option A} {f : C → A}
    (same : ∀ c, abstract (f c) = (concrete c).map f) (n : Nat) (c : C) :
    after abstract n (f c) = (after concrete n c).map f := by
  induction n with
  | zero => rfl
  | succ n ih =>
    rw [after, after, ih]
    cases after concrete n c with
    | none => rfl
    | some c' => exact same c'

/-- A machine seen through `f` shows what the machine does. -/
theorem seen_map {concrete : C → Option C} {abstract : A → Option A} {f : C → A}
    {label : A → Option L} (same : ∀ c, abstract (f c) = (concrete c).map f) (n : Nat) (c : C) :
    seen abstract label n (f c) = seen concrete (fun c => label (f c)) n c := by
  induction n with
  | zero => rfl
  | succ n ih =>
    rw [seen, seen, ih, after_map same]
    cases after concrete n c <;> rfl

/-- A simulation in which a concrete step matches an abstract one that shows the same, or
shows nothing and lowers the rank. -/
structure Ranked (concrete : C → Option C) (abstract : A → Option A) (label : C → Option L)
    (label' : A → Option L) (ok : C → Prop) (rank : C → Nat) (R : C → A → Prop) : Prop where
  simulate : ∀ c c' a, R c a → ok c → concrete c = some c' →
    (label c = none ∧ rank c' < rank c ∧ R c' a) ∨
      label' a = label c ∧ ∃ a', abstract a = some a' ∧ R c' a'

variable {concrete : C → Option C} {abstract : A → Option A} {label : C → Option L}
  {label' : A → Option L} {ok : C → Prop} {rank : C → Nat} {R : C → A → Prop}

/-- Every concrete run is matched by an abstract one that shows the same. -/
theorem Ranked.run (sim : Ranked concrete abstract label label' ok rank R) {c c' : C} {a : A}
    (related : R c a) {n : Nat} (run : after concrete n c = some c')
    (fine : ∀ k < n, ∀ u, after concrete k c = some u → ok u) :
    ∃ m a', after abstract m a = some a' ∧ R c' a' ∧
      seen abstract label' m a = seen concrete label n c := by
  induction n generalizing c' with
  | zero =>
    cases run
    exact ⟨0, a, rfl, related, rfl⟩
  | succ n ih =>
    obtain ⟨u, earlier, last⟩ := after_succ.mp run
    obtain ⟨m, b, reached, relatedU, same⟩ := ih earlier fun k before =>
      fine k (Nat.lt_succ_of_lt before)
    have okU := fine n (Nat.lt_succ_self n) u earlier
    rcases sim.simulate u c' b relatedU okU last with ⟨silent, -, still⟩ | ⟨shown, b', moved, next⟩
    · refine ⟨m, b, reached, still, ?_⟩
      rw [seen_succ earlier, silent, same]
      exact (List.append_nil _).symm
    · refine ⟨m + 1, b', after_succ.mpr ⟨b, reached, moved⟩, next, ?_⟩
      rw [seen_succ earlier, seen_succ reached, same, shown]

/-- From any state of a run that goes on, the next step that is matched. -/
theorem Ranked.next (sim : Ranked concrete abstract label label' ok rank R) {c : C}
    {n : Nat} {u : C} (goes : ∀ n, ∃ u, after concrete n c = some u ∧ ok u)
    (here : after concrete n c = some u) {b : A} (related : R u b) :
    ∃ k v w b', after concrete k c = some v ∧ concrete v = some w ∧ abstract b = some b' ∧ R w b' ∧
      label' b = label v ∧ seen concrete label k c = seen concrete label n c := by
  -- by induction on the rank: a step that matches nothing lowers it
  induction isRank : rank u using Nat.strongRecOn generalizing n u with
  | ind r ih =>
    obtain ⟨w, after', -⟩ := goes (n + 1)
    obtain ⟨u', here', stepped⟩ := after_succ.mp after'
    cases here.symm.trans here'
    obtain ⟨u', here', okU⟩ := goes n
    cases here.symm.trans here'
    rcases sim.simulate u w b related okU stepped with
      ⟨silent, falls, still⟩ | ⟨shown, b', moved, next⟩
    · obtain ⟨k, v, w', b', reached, further, moved, next, shown, same⟩ :=
        ih (rank w) (isRank ▸ falls) after' still rfl
      refine ⟨k, v, w', b', reached, further, moved, next, shown, ?_⟩
      rw [same, seen_succ here, silent]
      exact List.append_nil _
    · exact ⟨n, u, w, b', here, stepped, moved, next, shown, rfl⟩

/-- Where the concrete run goes on, so does the abstract one, and it shows nothing else. -/
theorem Ranked.goes (sim : Ranked concrete abstract label label' ok rank R) {c : C} {a : A}
    (related : R c a) (goes : ∀ n, ∃ u, after concrete n c = some u ∧ ok u) (m : Nat) :
    ∃ n u b, after concrete n c = some u ∧ after abstract m a = some b ∧ R u b ∧
      seen abstract label' m a = seen concrete label n c := by
  induction m with
  | zero => exact ⟨0, c, a, rfl, rfl, related, rfl⟩
  | succ m ih =>
    obtain ⟨n, u, b, here, reached, relatedU, same⟩ := ih
    obtain ⟨k, v, w, b', there, stepped, moved, next, shown, kept⟩ :=
      @Ranked.next C A L concrete abstract label label' ok rank R sim c n u goes here b relatedU
    refine ⟨k + 1, w, b', after_succ.mpr ⟨v, there, stepped⟩, after_succ.mpr ⟨b, reached, moved⟩,
      next, ?_⟩
    rw [seen_succ there, seen_succ reached, same, shown, kept]

end

end Run
