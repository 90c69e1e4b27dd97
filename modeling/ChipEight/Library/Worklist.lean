import ChipEight.Library.Run
import Mathlib.Algebra.BigOperators.Group.Finset.Basic
import Mathlib.Algebra.Order.BigOperators.Group.Finset

/-! Dataflow with a worklist.

Every key has a state, or none as long as nothing reached it. A key on the worklist
passes states to other keys, where they are joined into what is there; a key whose state
changed goes back on the list. When the list is empty every state passed on is below
the state of the key it was passed to.
-/

set_option autoImplicit false

namespace Worklist

structure Table (K S : Type) where
  incoming : K → Option S
  work : List K

/-- What a key passes on, and how states are joined; `none` gives the analysis up. -/
structure Flow (K S : Type) where
  join : S → S → S
  edges : K → S → Option (List (K × S))

section
variable {K S : Type} [DecidableEq K] [DecidableEq S] (F : Flow K S)

/-- Pass a state to a key. -/
def relax (t : Table K S) (e : K × S) : Table K S :=
  match t.incoming e.1 with
  | none => ⟨Function.update t.incoming e.1 (some e.2), t.work ++ [e.1]⟩
  | some old =>
    let merged := F.join old e.2
    if old = merged then t
    else ⟨Function.update t.incoming e.1 (some merged), t.work ++ [e.1]⟩

/-- Take a key off the list and pass on what it passes on. -/
def step (t : Table K S) : Option (Table K S) :=
  match t.work with
  | [] => none
  | k :: rest =>
    match t.incoming k with
    | none => none
    | some σ => (F.edges k σ).map fun out => out.foldl (relax F) ⟨t.incoming, rest⟩

/-- What is asked of a join: it is an upper bound, and stays one when more is joined. -/
structure Lawful : Prop where
  idem : ∀ σ, F.join σ σ = σ
  again : ∀ τ σ, F.join (F.join τ σ) σ = F.join τ σ
  absorb : ∀ τ σ ρ, F.join τ σ = τ → F.join (F.join τ ρ) σ = F.join τ ρ

/-- The state of the key is above the state passed to it. -/
def Covered (t : Table K S) (e : K × S) : Prop :=
  ∃ τ, t.incoming e.1 = some τ ∧ F.join τ e.2 = τ

/-- A key that is not on the list has passed on its state. -/
def Settled (t : Table K S) : Prop :=
  ∀ k σ, t.incoming k = some σ → k ∉ t.work →
    ∃ out, F.edges k σ = some out ∧ ∀ e ∈ out, Covered F t e

variable {F}

/-! ## Passing a state -/

theorem relax_cases (t : Table K S) (e : K × S) :
    relax F t e = t ∧ Covered F t e ∨
      ∃ σ, relax F t e = ⟨Function.update t.incoming e.1 (some σ), t.work ++ [e.1]⟩ ∧
        (t.incoming e.1 = none ∧ σ = e.2 ∨
          ∃ old, t.incoming e.1 = some old ∧ σ = F.join old e.2 ∧ σ ≠ old) := by
  unfold relax Covered
  cases here : t.incoming e.1 with
  | none => exact .inr ⟨e.2, rfl, .inl ⟨rfl, rfl⟩⟩
  | some old =>
    dsimp only
    by_cases same : old = F.join old e.2
    · rw [if_pos same]
      exact .inl ⟨rfl, old, rfl, same.symm⟩
    · rw [if_neg same]
      exact .inr ⟨_, rfl, .inr ⟨old, rfl, rfl, fun equal => same equal.symm⟩⟩

theorem relax_self (lawful : Lawful F) (t : Table K S) (e : K × S) : Covered F (relax F t e) e := by
  obtain ⟨same, covered⟩ | ⟨σ, shape, how⟩ := @relax_cases K S _ _ F t e
  · rw [same]
    exact covered
  · rw [shape]
    refine ⟨σ, Function.update_self .., ?_⟩
    obtain ⟨_, rfl⟩ | ⟨old, _, rfl, _⟩ := how
    · exact lawful.idem e.2
    · exact lawful.again old e.2

theorem relax_covered (lawful : Lawful F) {t : Table K S} {d : K × S} (covered : Covered F t d)
    (e : K × S) : Covered F (relax F t e) d := by
  obtain ⟨same, -⟩ | ⟨σ, shape, how⟩ := @relax_cases K S _ _ F t e
  · rw [same]
    exact covered
  · obtain ⟨τ, there, above⟩ := covered
    rw [shape]
    by_cases key : d.1 = e.1
    · rw [key] at there
      obtain ⟨none, -⟩ | ⟨old, here, rfl, -⟩ := how
      · rw [none] at there
        cases there
      · obtain rfl : old = τ := Option.some.inj (here.symm.trans there)
        refine ⟨F.join old e.2, ?_, lawful.absorb old d.2 e.2 above⟩
        rw [key]
        exact Function.update_self ..
    · refine ⟨τ, ?_, above⟩
      rw [← there]
      exact Function.update_of_ne key ..

theorem relax_work {t : Table K S} {e : K × S} {k : K} (waits : k ∈ t.work) :
    k ∈ (relax F t e).work := by
  obtain ⟨same, -⟩ | ⟨σ, shape, -⟩ := @relax_cases K S _ _ F t e
  · rw [same]
    exact waits
  · rw [shape]
    exact List.mem_append_left _ waits

/-- A key not on the list still has the state it had. -/
theorem relax_old {t : Table K S} {e : K × S} {k : K} (idle : k ∉ (relax F t e).work) :
    (relax F t e).incoming k = t.incoming k := by
  obtain ⟨same, -⟩ | ⟨σ, shape, -⟩ := @relax_cases K S _ _ F t e
  · rw [same]
  · rw [shape] at idle ⊢
    have other : k ≠ e.1 := by
      rintro rfl
      exact idle (List.mem_append_right _ List.mem_cons_self)
    exact Function.update_of_ne other ..

/-- What holds after a list of states was passed on. -/
theorem relaxAll (lawful : Lawful F) (out : List (K × S)) (t : Table K S) :
    (∀ e ∈ out, Covered F (out.foldl (relax F) t) e) ∧
    (∀ d, Covered F t d → Covered F (out.foldl (relax F) t) d) ∧
    (∀ k ∈ t.work, k ∈ (out.foldl (relax F) t).work) ∧
    ∀ k, k ∉ (out.foldl (relax F) t).work →
      (out.foldl (relax F) t).incoming k = t.incoming k := by
  induction out generalizing t with
  | nil => exact ⟨fun e here => absurd here List.not_mem_nil, fun _ h => h, fun _ h => h, fun _ _ => rfl⟩
  | cons e out ih =>
    obtain ⟨passed, kept, waits, old⟩ := ih (relax F t e)
    refine ⟨?_, ?_, ?_, ?_⟩
    · intro d here
      obtain rfl | later := List.mem_cons.mp here
      · exact kept d (relax_self lawful t d)
      · exact passed d later
    · exact fun d covered => kept d (relax_covered lawful covered e)
    · exact fun k here => waits k (relax_work here)
    · intro k idle
      have before : k ∉ (relax F t e).work := fun here => idle (waits k here)
      exact (old k idle).trans (relax_old before)

theorem relaxAll_work {out : List (K × S)} {t : Table K S} {k : K}
    (waits : k ∈ (out.foldl (relax F) t).work) : k ∈ t.work ∨ ∃ e ∈ out, e.1 = k := by
  induction out generalizing t with
  | nil => exact .inl waits
  | cons e out ih =>
    obtain before | ⟨d, later, same⟩ := ih waits
    · obtain ⟨same, -⟩ | ⟨σ, shape, -⟩ := @relax_cases K S _ _ F t e
      · exact .inl (same ▸ before)
      · rw [shape] at before
        refine (List.mem_append.mp before).imp_right fun new => ?_
        exact ⟨e, List.mem_cons_self, (List.mem_singleton.mp new).symm⟩
    · exact .inr ⟨d, List.mem_cons_of_mem _ later, same⟩

/-! ## Runs -/

theorem step_eq_some {t t' : Table K S} (stepped : step F t = some t') :
    ∃ k rest σ out, t.work = k :: rest ∧ t.incoming k = some σ ∧ F.edges k σ = some out ∧
      t' = out.foldl (relax F) ⟨t.incoming, rest⟩ := by
  unfold step at stepped
  split at stepped
  · cases stepped
  · rename_i k rest work
    split at stepped
    · cases stepped
    · rename_i σ here
      obtain ⟨out, edges, rfl⟩ := Option.map_eq_some_iff.mp stepped
      exact ⟨k, rest, σ, out, work, here, edges, rfl⟩

theorem step_settled (lawful : Lawful F) {t t' : Table K S} (settled : Settled F t)
    (stepped : step F t = some t') : Settled F t' := by
  obtain ⟨k, rest, σ, out, work, here, edges, rfl⟩ := step_eq_some stepped
  obtain ⟨passed, kept, waits, old⟩ := relaxAll lawful out ⟨t.incoming, rest⟩
  intro k' σ' there idle
  rw [old k' idle] at there
  have same : t.incoming k' = some σ' := there
  by_cases popped : k' = k
  · subst popped
    rw [here] at same
    cases same
    exact ⟨out, edges, passed⟩
  · have idle' : k' ∉ t.work := by
      rw [work]
      intro waiting
      obtain equal | later := List.mem_cons.mp waiting
      · exact popped equal
      · exact idle (waits k' later)
    obtain ⟨out', edges', covered⟩ := settled k' σ' same idle'
    exact ⟨out', edges', fun e inside => kept e (covered e inside)⟩

theorem step_covered (lawful : Lawful F) {t t' : Table K S} {e : K × S} (covered : Covered F t e)
    (stepped : step F t = some t') : Covered F t' e := by
  obtain ⟨k, rest, σ, out, work, here, edges, rfl⟩ := step_eq_some stepped
  exact (relaxAll lawful out ⟨t.incoming, rest⟩).2.1 e covered

/-! ## Termination -/

/-- Keys that can be reached, and how often a state can still change. -/
structure Bounded (F : Flow K S) (keys : Finset K) (rank : S → Nat) (height : Nat) : Prop where
  closed : ∀ k ∈ keys, ∀ σ out, F.edges k σ = some out → ∀ e ∈ out, e.1 ∈ keys
  falls : ∀ τ σ, F.join τ σ ≠ τ → rank (F.join τ σ) < rank τ
  height : ∀ σ, rank σ ≤ height

def weight (rank : S → Nat) (height : Nat) : Option S → Nat
  | none => height + 1
  | some σ => rank σ

def measure (keys : Finset K) (rank : S → Nat) (height : Nat) (t : Table K S) : Nat :=
  2 * (keys.sum fun k => weight rank height (t.incoming k)) + t.work.length

theorem relax_measure {keys : Finset K} {rank : S → Nat} {height : Nat}
    (bounded : Bounded F keys rank height) {t : Table K S} {e : K × S} (inside : e.1 ∈ keys) :
    measure keys rank height (relax F t e) ≤ measure keys rank height t := by
  obtain ⟨same, -⟩ | ⟨σ, shape, how⟩ := @relax_cases K S _ _ F t e
  · rw [same]
  · have lower : weight rank height (some σ) < weight rank height (t.incoming e.1) := by
      obtain ⟨none, rfl⟩ | ⟨old, here, rfl, changed⟩ := how
      · rw [none]
        exact Nat.lt_succ_of_le (bounded.height e.2)
      · rw [here]
        exact bounded.falls old e.2 changed
    have fewer : (keys.sum fun k => weight rank height
        (Function.update t.incoming e.1 (some σ) k)) <
        keys.sum fun k => weight rank height (t.incoming k) := by
      refine Finset.sum_lt_sum (fun k _ => ?_) ⟨e.1, inside, ?_⟩
      · by_cases key : k = e.1
        · rw [key, Function.update_self]
          exact Nat.le_of_lt lower
        · rw [Function.update_of_ne key]
      · rw [Function.update_self]
        exact lower
    rw [shape]
    unfold measure
    rw [List.length_append, List.length_singleton]
    dsimp only
    omega

theorem step_measure {keys : Finset K} {rank : S → Nat} {height : Nat}
    (bounded : Bounded F keys rank height) {t t' : Table K S} (waiting : ∀ k ∈ t.work, k ∈ keys)
    (stepped : step F t = some t') :
    (∀ k ∈ t'.work, k ∈ keys) ∧
      measure keys rank height t' < measure keys rank height t := by
  obtain ⟨k, rest, σ, out, work, here, edges, rfl⟩ := step_eq_some stepped
  have known := bounded.closed k (waiting k (work ▸ List.mem_cons_self)) σ out edges
  have start : ∀ k' ∈ (⟨t.incoming, rest⟩ : Table K S).work, k' ∈ keys := fun k' later =>
    waiting k' (work ▸ List.mem_cons_of_mem k later)
  have fewer : measure keys rank height (⟨t.incoming, rest⟩ : Table K S) <
      measure keys rank height t := by
    unfold measure
    rw [work, List.length_cons]
    dsimp only
    omega
  clear work edges stepped waiting
  generalize (⟨t.incoming, rest⟩ : Table K S) = u at start fewer
  induction out generalizing u with
  | nil => exact ⟨start, fewer⟩
  | cons e out ih =>
    have inside := known e List.mem_cons_self
    refine ih (fun d later => known d (List.mem_cons_of_mem e later)) (relax F u e) ?_
      (Nat.lt_of_le_of_lt (relax_measure bounded inside) fewer)
    intro k' there
    obtain ⟨same, -⟩ | ⟨σ, shape, -⟩ := @relax_cases K S _ _ F u e
    · exact start k' (same ▸ there)
    · rw [shape] at there
      obtain before | new := List.mem_append.mp there
      · exact start k' before
      · rw [List.mem_singleton.mp new]
        exact inside

/-! ## The end of the loop -/

/-- What is on the list has a state, and is one of the keys. -/
structure Ready (keys : Finset K) (t : Table K S) : Prop where
  inside : ∀ k ∈ t.work, k ∈ keys
  listed : ∀ k ∈ t.work, ∃ σ, t.incoming k = some σ

theorem relax_listed {t : Table K S} (listed : ∀ k ∈ t.work, ∃ σ, t.incoming k = some σ)
    (e : K × S) : ∀ k ∈ (relax F t e).work, ∃ σ, (relax F t e).incoming k = some σ := by
  obtain ⟨same, -⟩ | ⟨σ, shape, -⟩ := @relax_cases K S _ _ F t e
  · rw [same]
    exact listed
  · rw [shape]
    intro k here
    by_cases key : k = e.1
    · exact ⟨σ, by rw [key]; exact Function.update_self ..⟩
    · obtain old | new := List.mem_append.mp here
      · obtain ⟨τ, there⟩ := listed k old
        exact ⟨τ, (Function.update_of_ne key ..).trans there⟩
      · exact absurd (List.mem_singleton.mp new) key

theorem step_ready {keys : Finset K} {rank : S → Nat} {height : Nat}
    (bounded : Bounded F keys rank height) {t t' : Table K S} (ready : Ready keys t)
    (stepped : step F t = some t') : Ready keys t' := by
  refine ⟨(step_measure bounded ready.inside stepped).1, ?_⟩
  obtain ⟨k, rest, σ, out, work, here, edges, rfl⟩ := step_eq_some stepped
  have start : ∀ k' ∈ (⟨t.incoming, rest⟩ : Table K S).work, ∃ σ, t.incoming k' = some σ :=
    fun k' later => ready.listed k' (work ▸ List.mem_cons_of_mem k later)
  clear work edges stepped
  generalize shape : (⟨t.incoming, rest⟩ : Table K S) = u at start ⊢
  have listed : ∀ k' ∈ u.work, ∃ σ, u.incoming k' = some σ := by
    subst shape
    exact start
  clear shape start
  induction out generalizing u with
  | nil => exact listed
  | cons e out ih => exact ih (relax F u e) (relax_listed listed e)

/-- The loop ends. -/
theorem finish_halts {keys : Finset K} {rank : S → Nat} {height : Nat}
    (bounded : Bounded F keys rank height) {t : Table K S} (ready : Ready keys t) {n : Nat}
    (enough : measure keys rank height t ≤ n) : step F (Run.finish (step F) n t) = none := by
  have keeps (u v : Table K S) (here : Ready keys u) (stepped : step F u = some v) :
      Ready keys v := step_ready bounded here stepped
  exact Run.finish_stops_inv keeps
    (fun u v here stepped => (step_measure bounded here.inside stepped).2) ready enough

/-- It ends with an empty list, given that nothing gives the analysis up. -/
theorem finish_empty {keys : Finset K} {rank : S → Nat} {height : Nat}
    (bounded : Bounded F keys rank height) (total : ∀ k ∈ keys, ∀ σ, F.edges k σ ≠ none)
    {t : Table K S} (ready : Ready keys t) {n : Nat} (enough : measure keys rank height t ≤ n) :
    (Run.finish (step F) n t).work = [] := by
  have keeps (u v : Table K S) (here : Ready keys u) (stepped : step F u = some v) :
      Ready keys v := step_ready bounded here stepped
  have stopped := finish_halts bounded ready enough
  obtain ⟨inside, listed⟩ := @Run.finish_invariant _ _ _ keeps n t ready
  generalize Run.finish (step F) n t = u at stopped inside listed
  cases work : u.work with
  | nil => rfl
  | cons k rest =>
    have here : k ∈ u.work := work ▸ List.mem_cons_self
    obtain ⟨σ, known⟩ := listed k here
    unfold step at stopped
    rw [work] at stopped
    dsimp only at stopped
    rw [known] at stopped
    exact absurd (Option.map_eq_none_iff.mp stopped) (total k (inside k here) σ)

/-- At the end every state has been passed on, and what was covered at the start is. -/
theorem finish_closed (lawful : Lawful F) {t : Table K S} (settled : Settled F t) {n : Nat}
    (empty : (Run.finish (step F) n t).work = []) {k : K} {σ : S}
    (here : (Run.finish (step F) n t).incoming k = some σ) :
    ∃ out, F.edges k σ = some out ∧ ∀ e ∈ out, Covered F (Run.finish (step F) n t) e := by
  have atEnd : Settled F (Run.finish (step F) n t) :=
    Run.finish_invariant (fun _ _ before stepped => step_settled lawful before stepped) settled
  exact atEnd k σ here (by rw [empty]; exact List.not_mem_nil)

theorem finish_covered (lawful : Lawful F) {t : Table K S} {e : K × S} (covered : Covered F t e)
    (n : Nat) : Covered F (Run.finish (step F) n t) e := by
  have keeps (u v : Table K S) (before : Covered F u e) (stepped : step F u = some v) :
      Covered F v e := step_covered lawful before stepped
  exact Run.finish_invariant keeps covered

omit [DecidableEq K] [DecidableEq S] in
/-- What a state says, the state of the key says that it was passed to, where states say
less when joined. -/
theorem Covered.holds {γ : S → Prop} (mono : ∀ τ σ, F.join τ σ = τ → γ σ → γ τ) {t : Table K S}
    {k : K} {σ : S} (covered : Covered F t (k, σ)) (holds : γ σ) :
    ∃ τ, t.incoming k = some τ ∧ γ τ := by
  obtain ⟨τ, here, above⟩ := covered
  exact ⟨τ, here, mono τ σ above holds⟩

end

end Worklist
