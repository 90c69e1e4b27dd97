import ChipEight.Opt.Transfer
import Mathlib.Data.Fintype.BigOperators

/-! The worklist of `analyze` runs empty.

There are no more than `4096 * 4099 ^ 16` contexts, and the state of each can change
eighteen times. What the loop ends with is closed under the edges of the program.
-/

set_option autoImplicit false

namespace ChipEight.Opt

open Asm (Text Token Symbol Mnemonic Means)

/-! ## The domain -/

theorem joinValue_or (a b : Option Int) : joinValue a b = a ∨ joinValue a b = none := by
  unfold joinValue
  split
  · exact .inl rfl
  · exact .inr rfl

theorem joinValue_eq {a b : Option Int} (above : joinValue a b = a) : a = none ∨ a = b := by
  unfold joinValue at above
  split at above
  · exact .inr ‹a = b›
  · exact .inl above.symm

theorem joinValue_lawful (a b c : Option Int) :
    joinValue a a = a ∧ joinValue (joinValue a b) b = joinValue a b ∧
      (joinValue a b = a → joinValue (joinValue a c) b = joinValue a c) := by
  unfold joinValue
  refine ⟨if_pos rfl, ?_, ?_⟩
  · by_cases same : a = b
    · rw [if_pos same, if_pos same]
    · rw [if_neg same]
      split <;> rfl
  · intro above
    split
    · exact above
    · split <;> rfl

def known (a : Option Int) : Nat := if a.isSome then 1 else 0

theorem known_le (a : Option Int) : known a ≤ 1 := by
  unfold known
  split <;> omega

theorem known_join (a b : Option Int) : known (joinValue a b) ≤ known a := by
  obtain same | gone := joinValue_or a b
  · rw [same]
  · rw [gone]
    exact Nat.zero_le _

theorem known_falls {a b : Option Int} (changed : joinValue a b ≠ a) :
    known (joinValue a b) < known a := by
  obtain same | gone := joinValue_or a b
  · exact absurd same changed
  · rw [gone] at changed ⊢
    cases a with
    | none => exact absurd rfl changed
    | some v => exact Nat.one_pos

/-- How many constants a state holds. -/
def Constants.count (σ : Constants) : Nat := known σ.i + Finset.univ.sum fun x => known (σ.regs x)

theorem count_le (σ : Constants) : σ.count ≤ 17 := by
  have regs : (Finset.univ.sum fun x => known (σ.regs x)) ≤
      Finset.univ.sum fun _ : Fin 16 => 1 := Finset.sum_le_sum fun x _ => known_le (σ.regs x)
  have ones : (Finset.univ.sum fun _ : Fin 16 => 1) = 16 := by simp
  have first := known_le σ.i
  unfold Constants.count
  omega

theorem count_falls {τ σ : Constants} (changed : τ.join σ ≠ τ) : (τ.join σ).count < τ.count := by
  have regs : (Finset.univ.sum fun x => known ((τ.join σ).regs x)) ≤
      Finset.univ.sum fun x => known (τ.regs x) :=
    Finset.sum_le_sum fun x _ => known_join (τ.regs x) (σ.regs x)
  have first : known (τ.join σ).i ≤ known τ.i := known_join τ.i σ.i
  unfold Constants.count
  by_cases sameI : (τ.join σ).i = τ.i
  · have other : ∃ x, joinValue (τ.regs x) (σ.regs x) ≠ τ.regs x := by
      by_contra none
      apply changed
      have sameRegs : (τ.join σ).regs = τ.regs := by
        funext x
        exact Classical.not_not.mp (not_exists.mp none x)
      calc τ.join σ = ⟨(τ.join σ).i, (τ.join σ).regs⟩ := rfl
        _ = ⟨τ.i, τ.regs⟩ := by rw [sameI, sameRegs]
        _ = τ := rfl
    obtain ⟨x, moved⟩ := other
    have fewer : (Finset.univ.sum fun x => known ((τ.join σ).regs x)) <
        Finset.univ.sum fun x => known (τ.regs x) :=
      Finset.sum_lt_sum (fun x _ => known_join (τ.regs x) (σ.regs x))
        ⟨x, Finset.mem_univ x, known_falls moved⟩
    omega
  · have fewer : known (τ.join σ).i < known τ.i := known_falls sameI
    omega

/-! ## Contexts -/

section
variable (pcs returns : Nat)

/-- Contexts whose addresses are below these bounds. -/
structure IsContext (c : Context) : Prop where
  here : c.1 < pcs
  depth : c.2.length ≤ maxReturns
  returns : ∀ r ∈ c.2, r < returns

/-- A return stack is coded by sixteen numbers, of which the largest ends it. -/
def contextOf (code : Fin pcs × (Fin 16 → Fin (returns + 1))) : Context :=
  (code.1.val, ((List.ofFn code.2).map Fin.val).takeWhile (· < returns))

def contexts : Finset Context := Finset.univ.image (contextOf pcs returns)

theorem contexts_card : (contexts pcs returns).card ≤ pcs * (returns + 1) ^ 16 := by
  have image : (contexts pcs returns).card ≤
      (Finset.univ : Finset (Fin pcs × (Fin 16 → Fin (returns + 1)))).card :=
    Finset.card_image_le
  rw [Finset.card_univ, Fintype.card_prod, Fintype.card_fun, Fintype.card_fin, Fintype.card_fin,
    Fintype.card_fin] at image
  exact image

variable {pcs returns}

theorem takeWhile_code {rs : List Nat} (small : ∀ r ∈ rs, r < returns) (k : Nat) :
    (rs ++ List.replicate k returns).takeWhile (· < returns) = rs := by
  rw [List.takeWhile_append_of_pos fun r inside => decide_eq_true (small r inside)]
  cases k with
  | zero => exact List.append_nil rs
  | succ k =>
    rw [List.replicate_succ, List.takeWhile_cons_of_neg (by simp), List.append_nil]

theorem mem_contexts {c : Context} : c ∈ contexts pcs returns ↔ IsContext pcs returns c := by
  unfold contexts
  rw [Finset.mem_image]
  constructor
  · rintro ⟨code, -, rfl⟩
    refine ⟨code.1.isLt, ?_, ?_⟩
    · refine Nat.le_trans (List.takeWhile_sublist _).length_le ?_
      rw [List.length_map, List.length_ofFn]
      exact Nat.le_refl 16
    · intro r inside
      have small := List.mem_takeWhile_imp inside
      exact of_decide_eq_true small
  · rintro ⟨here, depth, small⟩
    obtain ⟨pc, rs⟩ := c
    dsimp only at here depth small
    have size : maxReturns = 16 := rfl
    let padded := rs ++ List.replicate (16 - rs.length) returns
    have length : padded.length = 16 := by
      rw [List.length_append, List.length_replicate]
      omega
    have bound (i : Nat) (inside : i < padded.length) : padded[i] < returns + 1 := by
      obtain old | new := List.mem_append.mp (List.getElem_mem inside)
      · exact Nat.lt_succ_of_lt (small _ old)
      · rw [List.eq_of_mem_replicate new]
        exact Nat.lt_succ_self returns
    let code : Fin 16 → Fin (returns + 1) := fun i =>
      ⟨padded.get ⟨i.val, length.symm ▸ i.isLt⟩, bound i.val (length.symm ▸ i.isLt)⟩
    have whole : (List.ofFn code).map Fin.val = padded := by
      apply List.ext_getElem
      · rw [List.length_map, List.length_ofFn, length]
      · intro i _ _
        rw [List.getElem_map, List.getElem_ofFn]
        rfl
    refine ⟨(⟨pc, here⟩, code), Finset.mem_univ _, Prod.ext rfl ?_⟩
    show ((List.ofFn code).map Fin.val).takeWhile (· < returns) = rs
    rw [whole]
    exact takeWhile_code small _

end

/-! ## The loop -/

theorem start_incoming (c : Context) :
    Progress.start.table.incoming c = if c = (entry, []) then some .initial else none := by
  show Function.update (fun _ : Context => none) (entry, []) (some Constants.initial) c = _
  rw [Function.update_apply]

section
variable {U : Unicode} {labels : Labels} {bytes : List Byte} {statements : List Statement}

/-- What is asked of the labels and the numbers of a program. -/
structure Resolves (U : Unicode) (labels : Labels) (statements : List Statement) : Prop where
  numbers : SameNumbers U statements
  reserved : ∀ s ∈ statements, Reserved U labels s.args

theorem instructionAt_mem {pc : Nat} {s : Statement}
    (found : instructionAt statements pc = some s) :
    s ∈ statements ∧ s.pc = pc ∧ isInstruction s = true := by
  have here := List.mem_reverse.mp (List.mem_of_find?_eq_some found)
  have holds := @List.find?_some _ (fun s : Statement => s.pc == pc && isInstruction s) s _ found
  obtain ⟨same, isInsn⟩ := Bool.and_eq_true_iff.mp holds
  exact ⟨here, beq_iff_eq.mp same, isInsn⟩

/-- An address has an instruction: a statement there stands for it. -/
structure InsnAt (labels : Labels) (bytes : List Byte) (statements : List Statement) (pc : Nat)
    (i : Insn) : Prop where
  stands : ∃ s m, instructionAt statements pc = some s ∧ Stands labels bytes s m i

theorem Program.insnAt (program : Program labels bytes statements) {pc : Nat} {s : Statement}
    (found : instructionAt statements pc = some s) : ∃ i, InsnAt labels bytes statements pc i := by
  obtain ⟨here, -, isInsn⟩ := instructionAt_mem found
  obtain ⟨m, i, stands⟩ := program.stands s here isInsn
  exact ⟨i, s, m, found, stands⟩

theorem passOn_insn (program : Program labels bytes statements)
    (resolves : Resolves U labels statements) {pc : Nat} {i : Insn}
    (insn : InsnAt labels bytes statements pc i) (returns : List Nat) (σ : Constants) :
    passOn U labels statements (pc, returns) σ =
      some (((contextsAfter pc returns i).filter fun c => inMemory c.1).map
        fun c => (c, σ.after i)) := by
  obtain ⟨s, m, found, stands⟩ := insn.stands
  obtain ⟨here, rfl, isInsn⟩ := instructionAt_mem found
  have reads : ∀ a ∈ s.args, ∀ n, Asm.value (encodeLabels labels) true a = .ok n →
      resolve U labels a = some (n : Int) := fun a operand n known =>
    program.resolve resolves.numbers here isInsn operand known
  obtain ⟨requests, moved⟩ := transfer_stands stands.op stands.means reads
    (resolves.reserved s here) σ
  have next := transitions_stands stands.op stands.means reads returns
  unfold passOn
  dsimp only
  rw [found]
  simp only [moved, next, Option.bind_eq_bind, Option.bind_some, List.filter_map, List.map_map]
  rfl

theorem passOn_none {context : Context} (nothing : instructionAt statements context.1 = none)
    (σ : Constants) : passOn U labels statements context σ = some [] := by
  unfold passOn
  rw [nothing]

theorem flow_lawful : Worklist.Lawful (flow U labels statements) := by
  constructor
  · intro σ
    show Constants.join σ σ = σ
    unfold Constants.join
    rw [(joinValue_lawful σ.i σ.i σ.i).1]
    have regs : (fun x => joinValue (σ.regs x) (σ.regs x)) = σ.regs := by
      funext x
      exact (joinValue_lawful _ none none).1
    rw [regs]
  · intro τ σ
    show Constants.join (Constants.join τ σ) σ = Constants.join τ σ
    unfold Constants.join
    dsimp only
    rw [(joinValue_lawful τ.i σ.i none).2.1]
    congr 1
    funext x
    exact (joinValue_lawful _ _ none).2.1
  · intro τ σ ρ above
    have above' : Constants.join τ σ = τ := above
    show Constants.join (Constants.join τ ρ) σ = Constants.join τ ρ
    unfold Constants.join at above' ⊢
    dsimp only
    rw [(joinValue_lawful τ.i σ.i ρ.i).2.2 (congrArg Constants.i above')]
    congr 1
    funext x
    exact (joinValue_lawful _ _ _).2.2 (congrFun (congrArg Constants.regs above') x)

theorem mem_passOn {c : Context} {σ : Constants} {out : List (Context × Constants)}
    (edges : passOn U labels statements c σ = some out) {e : Context × Constants} (here : e ∈ out) :
    ∃ stmt r t, instructionAt statements c.1 = some stmt ∧ transfer U labels stmt σ = some r ∧
      t ∈ (transitions U labels stmt c.2).1 ∧ inMemory t.1 = true ∧
      e = ((t.1.toNat, t.2), r.1) := by
  unfold passOn at edges
  split at edges
  · cases edges
    cases here
  · rename_i stmt found
    obtain ⟨r, moved, rest⟩ := Option.bind_eq_some_iff.mp edges
    cases rest
    obtain ⟨t, next, rfl⟩ := List.mem_map.mp here
    obtain ⟨next, dest⟩ := List.mem_filter.mp next
    exact ⟨stmt, r, t, found, moved, next, dest, rfl⟩

/-- The instruction of a context passes control on to another context. -/
def Passes (U : Unicode) (labels : Labels) (statements : List Statement) (c c' : Context) : Prop :=
  ∃ stmt, instructionAt statements c.1 = some stmt ∧
    ∃ t ∈ (transitions U labels stmt c.2).1, inMemory t.1 = true ∧ c' = (t.1.toNat, t.2)

/-- Control gets to the context from the entry point, by the transitions of `analyze`. -/
def Entered (U : Unicode) (labels : Labels) (statements : List Statement) : Context → Prop :=
  Relation.ReflTransGen (Passes U labels statements) (entry, [])

theorem transitions_returns {stmt : Statement} {returns : List Nat} {t : Int × List Nat}
    (next : t ∈ (transitions U labels stmt returns).1) :
    t.2 = returns ∨ t.2 = returns.dropLast ∨
      returns.length < maxReturns ∧ t.2 = returns ++ [stmt.pc + 2] := by
  unfold transitions at next
  split at next
  · split at next
    · cases next
    · split at next
      · cases next
      · rename_i room
        rw [List.mem_singleton.mp next]
        exact .inr (.inr ⟨Nat.lt_of_not_le room, rfl⟩)
  · split at next
    · split at next
      · cases next
      · rw [List.mem_singleton.mp next]
        exact .inr (.inl rfl)
    · obtain ⟨dest, -, rfl⟩ := List.mem_map.mp next
      exact .inl rfl

section
-- The bounds are variables here, since unification would count up to the numbers.
variable {pcs bound : Nat}

theorem passes_inside (memory : 4096 ≤ pcs) (wide : pcs + 2 ≤ bound) {c c' : Context}
    (inside : IsContext pcs bound c) (passes : Passes U labels statements c c') :
    IsContext pcs bound c' := by
  obtain ⟨here, depth, small⟩ := inside
  obtain ⟨stmt, found, t, next, dest, rfl⟩ := passes
  obtain ⟨-, isPc, -⟩ := instructionAt_mem found
  have low : t.1.toNat < pcs := by
    unfold inMemory limit at dest
    simp only [Bool.and_eq_true, decide_eq_true_eq] at dest
    omega
  obtain same | popped | ⟨room, pushed⟩ := transitions_returns next
  · exact ⟨low, same ▸ depth, same ▸ small⟩
  · refine ⟨low, ?_, fun r inside => small r (List.mem_of_mem_dropLast (popped ▸ inside))⟩
    dsimp only
    rw [popped, List.length_dropLast]
    exact Nat.le_trans (Nat.sub_le ..) depth
  · refine ⟨low, ?_, ?_⟩
    · dsimp only
      rw [pushed, List.length_append, List.length_singleton]
      exact room
    · intro r inside
      rw [pushed] at inside
      obtain old | new := List.mem_append.mp inside
      · exact small r old
      · rw [List.mem_singleton.mp new]
        omega

/-- The contexts the loop can meet. -/
noncomputable def enteredContexts (U : Unicode) (labels : Labels) (statements : List Statement)
    (pcs bound : Nat) : Finset Context :=
  @Finset.filter _ (Entered U labels statements) (Classical.decPred _) (contexts pcs bound)

theorem mem_enteredContexts {c : Context} : c ∈ enteredContexts U labels statements pcs bound ↔
    IsContext pcs bound c ∧ Entered U labels statements c := by
  rw [← mem_contexts]
  exact @Finset.mem_filter _ _ (Classical.decPred _) _ _

theorem flow_bounded (memory : 4096 ≤ pcs) (wide : pcs + 2 ≤ bound) :
    Worklist.Bounded (flow U labels statements) (enteredContexts U labels statements pcs bound)
      Constants.count 17 := by
  refine ⟨?_, fun τ σ changed => count_falls changed, count_le⟩
  intro c known σ out edges e here
  obtain ⟨inside, entered⟩ := mem_enteredContexts.mp known
  obtain ⟨stmt, r, t, found, -, next, dest, rfl⟩ := mem_passOn edges here
  have passes : Passes U labels statements c (t.1.toNat, t.2) :=
    ⟨stmt, found, t, next, dest, rfl⟩
  exact mem_enteredContexts.mpr ⟨passes_inside memory wide inside passes, entered.tail passes⟩

theorem start_ready (memory : 4096 ≤ pcs) :
    Worklist.Ready (enteredContexts U labels statements pcs bound) Progress.start.table := by
  have work : Progress.start.table.work = [(entry, [])] := rfl
  constructor
  · intro k here
    rw [work] at here
    rw [List.mem_singleton.mp here]
    have low : entry < pcs := Nat.lt_of_lt_of_le (by decide) memory
    exact mem_enteredContexts.mpr
      ⟨⟨low, Nat.zero_le _, fun r inside => absurd inside List.not_mem_nil⟩, .refl⟩
  · intro k here
    rw [work] at here
    rw [List.mem_singleton.mp here]
    exact ⟨.initial, start_incoming _⟩

theorem start_measure {keys : Finset Context} (card : keys.card ≤ 4096 * 4099 ^ 16) :
    Worklist.measure keys Constants.count 17 Progress.start.table ≤ visits := by
  have weights : (keys.sum fun k =>
      Worklist.weight Constants.count 17 (Progress.start.table.incoming k)) ≤
      keys.sum fun _ => 18 := by
    refine Finset.sum_le_sum fun k _ => ?_
    unfold Worklist.weight
    split
    · exact Nat.le_refl 18
    · exact Nat.le_succ_of_le (count_le _)
  rw [Finset.sum_const_nat fun _ _ => rfl] at weights
  have work : Progress.start.table.work.length = 1 := rfl
  unfold Worklist.measure visits
  rw [work]
  generalize 4096 * 4099 ^ 16 = all at card ⊢
  omega

theorem enteredContexts_card (isPcs : pcs = 4096) :
    (enteredContexts U labels statements pcs (pcs + 2)).card ≤ 4096 * 4099 ^ 16 := by
  have all := contexts_card pcs (pcs + 2)
  have size : pcs * (pcs + 2 + 1) ^ 16 = 4096 * 4099 ^ 16 := by rw [isPcs]
  exact Nat.le_trans (@Finset.card_filter_le _ _ _ (Classical.decPred _)) (size ▸ all)

end

theorem flow_total (program : Program labels bytes statements)
    (resolves : Resolves U labels statements) (context : Context) (σ : Constants) :
    (flow U labels statements).edges context σ ≠ none := by
  obtain ⟨pc, returns⟩ := context
  show passOn U labels statements (pc, returns) σ ≠ none
  cases found : instructionAt statements pc with
  | none =>
    rw [@passOn_none U labels statements (pc, returns) found σ]
    exact Option.some_ne_none _
  | some s =>
    obtain ⟨i, insn⟩ := program.insnAt found
    rw [passOn_insn program resolves insn returns σ]
    exact Option.some_ne_none _

theorem visit_table (p : Progress) :
    Worklist.step (flow U labels statements) p.table =
      (visit U labels statements p).map Progress.table := by
  unfold visit
  cases work : p.table.work with
  | nil =>
    unfold Worklist.step
    rw [work]
    rfl
  | cons context rest =>
    cases here : p.table.incoming context with
    | none =>
      unfold Worklist.step
      rw [work]
      dsimp only
      rw [here]
      simp
    | some σ =>
      cases stepped : Worklist.step (flow U labels statements) p.table with
      | none => simp
      | some table => simp [here]

/-- What `analyze` has found out about the contexts. -/
abbrev states (U : Unicode) (labels : Labels) (statements : List Statement) :
    Worklist.Table Context Constants := (fixpoint U labels statements).table

theorem states_eq : states U labels statements =
    Run.finish (Worklist.step (flow U labels statements)) visits Progress.start.table :=
  Run.finish_map visit_table visits Progress.start

theorem states_halt (U : Unicode) (labels : Labels) (statements : List Statement) :
    Worklist.step (flow U labels statements) (states U labels statements) = none := by
  obtain ⟨pcs, isPcs⟩ : ∃ n, n = 4096 := ⟨_, rfl⟩
  rw [states_eq]
  exact Worklist.finish_halts (flow_bounded (Nat.le_of_eq isPcs.symm) (Nat.le_refl (pcs + 2)))
    (start_ready (Nat.le_of_eq isPcs.symm)) (start_measure (enteredContexts_card isPcs))

theorem states_drain (total : ∀ c, Entered U labels statements c →
    ∀ σ, passOn U labels statements c σ ≠ none) : (states U labels statements).work = [] := by
  obtain ⟨pcs, isPcs⟩ : ∃ n, n = 4096 := ⟨_, rfl⟩
  rw [states_eq]
  exact Worklist.finish_empty (flow_bounded (Nat.le_of_eq isPcs.symm) (Nat.le_refl (pcs + 2)))
    (fun c known => total c (mem_enteredContexts.mp known).2)
    (start_ready (Nat.le_of_eq isPcs.symm)) (start_measure (enteredContexts_card isPcs))

theorem states_empty (program : Program labels bytes statements)
    (resolves : Resolves U labels statements) : (states U labels statements).work = [] :=
  states_drain fun c _ => flow_total program resolves c

theorem states_settled (empty : (states U labels statements).work = []) {c : Context}
    {σ : Constants} (here : (states U labels statements).incoming c = some σ) :
    ∃ out, passOn U labels statements c σ = some out ∧
      ∀ e ∈ out, Worklist.Covered (flow U labels statements) (states U labels statements) e := by
  have settled : Worklist.Settled (flow U labels statements) Progress.start.table := by
    intro k τ there idle
    have other : k ≠ (entry, []) := fun same => idle (same ▸ List.mem_cons_self)
    rw [start_incoming, if_neg other] at there
    cases there
  rw [states_eq] at here empty ⊢
  exact Worklist.finish_closed flow_lawful settled empty here

theorem states_closed (program : Program labels bytes statements)
    (resolves : Resolves U labels statements) {pc : Nat} {returns : List Nat} {σ : Constants}
    {i : Insn} (here : (states U labels statements).incoming (pc, returns) = some σ)
    (insn : InsnAt labels bytes statements pc i) {c : Context}
    (next : c ∈ contextsAfter pc returns i) (dest : inMemory c.1 = true) :
    Worklist.Covered (flow U labels statements) (states U labels statements) (c, σ.after i) := by
  obtain ⟨out, edges, covered⟩ := states_settled (states_empty program resolves) here
  rw [passOn_insn program resolves insn returns σ] at edges
  cases edges
  exact covered _ (List.mem_map.mpr ⟨c, List.mem_filter.mpr ⟨next, dest⟩, rfl⟩)

theorem states_entry :
    Worklist.Covered (flow U labels statements) (states U labels statements)
      ((entry, []), .initial) := by
  rw [states_eq]
  apply Worklist.finish_covered flow_lawful
  exact ⟨.initial, start_incoming _, flow_lawful.idem _⟩

end

end ChipEight.Opt
