import ChipEight.Opt.Fixpoint

/-! When `analyze` comes to a fixpoint.

The loop of `analyze` always ends. It ends with an exception where control gets to a
statement whose register it can not read, which chip8-asm never lets pass but may not have
seen: `splitlines` cuts a line also inside a comment, at a form feed.
-/

set_option autoImplicit false

namespace ChipEight.Opt

open Asm (Text Token Mnemonic startsWithV wordI wordF wordB wordMemory)

/-! ## Registers -/

/-- The word itself where it is taken for a register. -/
def registerOf (word : Token) : List Token := if startsWithV word then [word] else []

/-- The words whose second character `LD` reads as the number of a register. -/
def loadWords (a b : Token) : List Token :=
  if a == wordI then []
  else if isRegister a then a :: registerOf b
  else if a == wordF then []
  else if a == wordB && startsWithV b then []
  else if a == wordMemory && startsWithV b then [b]
  else if b == wordMemory && startsWithV a then [a]
  else []

def addWords (a b : Token) : List Token :=
  if a == wordI then registerOf b
  else if startsWithV a then a :: registerOf b
  else []

/-- The words whose second character `analyze` reads as the number of a register. -/
def registerWords (stmt : Statement) : List Token :=
  match stmt.args with
  | [] => []
  | a :: rest =>
    let operands := match rest with
      | [b] =>
        if stmt.op == some Mnemonic.ld.text then loadWords a b
        else if stmt.op == some Mnemonic.add.text then addWords a b
        else []
      | _ => []
    operands ++ if clobbers.any fun m => stmt.op == some m.text then registerOf a else []

section
variable (U : Unicode)

/-- Every register the statement names has a number. -/
def Legible (stmt : Statement) : Prop := ∀ word ∈ registerWords stmt, (registerIndex U word).isSome

variable {U} {labels : Labels} {statements : List Statement}

theorem operandValue_isSome (σ : Constants) (b : Token) :
    (operandValue U labels σ b).isSome ↔ ∀ word ∈ registerOf b, (registerIndex U word).isSome := by
  unfold operandValue registerOf
  split <;> simp

theorem transferLoad_isSome (a b : Token) (σ : Constants) :
    (transferLoad U labels a b σ).isSome ↔ ∀ word ∈ loadWords a b, (registerIndex U word).isSome := by
  unfold transferLoad loadWords
  split
  · simp
  split
  · rw [List.forall_mem_cons, ← @operandValue_isSome U labels σ b]
    cases registerIndex U a <;> cases operandValue U labels σ b <;> simp
  split
  · simp
  split
  · simp
  split
  · cases index : registerIndex U b <;> simp [index]
  split
  · cases index : registerIndex U a <;> simp [index]
  · simp

theorem transferAdd_isSome (a b : Token) (σ : Constants) :
    (transferAdd U labels a b σ).isSome ↔ ∀ word ∈ addWords a b, (registerIndex U word).isSome := by
  unfold transferAdd addWords
  split
  · unfold registerOf
    split
    · cases index : registerIndex U b <;> simp [index]
    · simp
  split
  · rw [List.forall_mem_cons, ← @operandValue_isSome U labels σ b]
    cases registerIndex U a <;> cases operandValue U labels σ b <;> simp
  · simp

theorem bind_isSome {A B : Type} {o : Option A} {f : A → Option B} {P : Prop}
    (always : ∀ r, (f r).isSome ↔ P) : (o >>= f).isSome ↔ o.isSome ∧ P := by
  cases o with
  | none => simp
  | some r => simpa using always r

theorem transfer_isSome (stmt : Statement) (σ : Constants) :
    (transfer U labels stmt σ).isSome ↔ Legible U stmt := by
  unfold transfer Legible registerWords
  cases args : stmt.args with
  | nil => simp
  | cons a rest =>
    -- The invalidation of the first operand comes behind every branch.
    let invalidated (r : Constants × List Request) : Option (Constants × List Request) :=
      if (clobbers.any fun m => stmt.op == some m.text) && startsWithV a then
        (registerIndex U a).bind fun x => some (r.1.setReg x none, r.2)
      else some r
    have clobbered (r : Constants × List Request) : (invalidated r).isSome ↔
        ∀ word ∈ (if clobbers.any fun m => stmt.op == some m.text then registerOf a else []),
          (registerIndex U word).isSome := by
      unfold registerOf
      dsimp only [invalidated]
      cases clobbers.any fun m => stmt.op == some m.text <;> cases startsWithV a <;>
        cases index : registerIndex U a <;> simp [index]
    have behind {o : Option (Constants × List Request)} {words : List Token}
        (read : o.isSome ↔ ∀ word ∈ words, (registerIndex U word).isSome) :
        (o >>= invalidated).isSome ↔ ∀ word ∈ words ++
          if clobbers.any fun m => stmt.op == some m.text then registerOf a else [],
          (registerIndex U word).isSome := by
      rw [List.forall_mem_append]
      exact (bind_isSome clobbered).trans (and_congr_left' read)
    have none {σ : Constants × List Request} : (some σ).isSome ↔
        ∀ word ∈ ([] : List Token), (registerIndex U word).isSome := by simp
    match rest with
    | [] => exact behind none
    | [b] =>
      dsimp only
      split
      · exact behind (transferLoad_isSome a b σ)
      split
      · exact behind (transferAdd_isSome a b σ)
      · exact behind none
    | [b, c] =>
      dsimp only
      split <;> exact behind none
    | _ :: _ :: _ :: _ => exact behind none

/-! ## The fixpoint -/

theorem passOn_some {c : Context} {stmt : Statement}
    (found : instructionAt statements c.1 = some stmt) (σ : Constants) :
    passOn U labels statements c σ = (transfer U labels stmt σ).map fun r =>
      (((transitions U labels stmt c.2).1.filter fun t => inMemory t.1).map
        fun t => ((t.1.toNat, t.2), r.1)) := by
  unfold passOn
  rw [found]
  dsimp only
  cases transfer U labels stmt σ <;> rfl

theorem analyze_isSome :
    (analyze U labels statements).isSome ↔ (states U labels statements).work = [] := by
  unfold analyze
  dsimp only
  split
  · rename_i empty
    simpa using empty
  · rename_i waits
    simpa using waits

/-- Every statement with an instruction that control gets to can be read. -/
def AllLegible (U : Unicode) (labels : Labels) (statements : List Statement) : Prop :=
  ∀ c stmt, Entered U labels statements c → instructionAt statements c.1 = some stmt →
    Legible U stmt

/-- The table `analyze` ends with is closed under the transitions out of its contexts. -/
def PostFixpoint (U : Unicode) (labels : Labels) (statements : List Statement) : Prop :=
  ∀ c σ stmt, (states U labels statements).incoming c = some σ →
    instructionAt statements c.1 = some stmt →
    ∃ r, transfer U labels stmt σ = some r ∧
      ∀ t ∈ (transitions U labels stmt c.2).1, inMemory t.1 = true →
        ∃ τ, (states U labels statements).incoming (t.1.toNat, t.2) = some τ ∧ τ.join r.1 = τ

theorem states_postFixpoint (empty : (states U labels statements).work = []) :
    PostFixpoint U labels statements := by
  intro c σ stmt here found
  obtain ⟨out, edges, covered⟩ := states_settled empty here
  rw [passOn_some found] at edges
  obtain ⟨r, moved, rfl⟩ := Option.map_eq_some_iff.mp edges
  refine ⟨r, moved, ?_⟩
  intro t next dest
  obtain ⟨τ, there, above⟩ :=
    covered _ (List.mem_map.mpr ⟨t, List.mem_filter.mpr ⟨next, dest⟩, rfl⟩)
  exact ⟨τ, there, above⟩

theorem PostFixpoint.entered (closed : PostFixpoint U labels statements) {c : Context}
    (path : Entered U labels statements c) :
    ∃ σ, (states U labels statements).incoming c = some σ := by
  induction path with
  | refl =>
    obtain ⟨τ, here, -⟩ := @states_entry U labels statements
    exact ⟨τ, here⟩
  | tail _ passes ih =>
    obtain ⟨σ, here⟩ := ih
    obtain ⟨stmt, found, t, next, dest, rfl⟩ := passes
    obtain ⟨_, _, onwards⟩ := closed _ σ stmt here found
    obtain ⟨τ, there, _⟩ := onwards t next dest
    exact ⟨τ, there⟩

theorem PostFixpoint.legible (closed : PostFixpoint U labels statements) :
    AllLegible U labels statements := by
  intro c stmt path found
  obtain ⟨σ, here⟩ := closed.entered path
  obtain ⟨r, moved, -⟩ := closed c σ stmt here found
  exact (transfer_isSome stmt σ).mp (by rw [moved]; rfl)

theorem AllLegible.empty (legible : AllLegible U labels statements) :
    (states U labels statements).work = [] := by
  apply states_drain
  intro c path σ
  cases found : instructionAt statements c.1 with
  | none =>
    rw [passOn_none found]
    exact Option.some_ne_none _
  | some stmt =>
    rw [passOn_some found, Ne, Option.map_eq_none_iff]
    exact Option.isSome_iff_ne_none.mp ((transfer_isSome stmt σ).mpr (legible c stmt path found))

/-- The loop of `analyze` ends for every program. It returns, and what it has found out is
closed under the transitions, where control gets to no statement it can not read. -/
theorem analyze_converges_iff (U : Unicode) (labels : Labels) (statements : List Statement) :
    visit U labels statements (fixpoint U labels statements) = none ∧
    ((analyze U labels statements).isSome ∧ PostFixpoint U labels statements ↔
      AllLegible U labels statements) := by
  constructor
  · have halts := states_halt U labels statements
    rw [visit_table] at halts
    exact Option.map_eq_none_iff.mp halts
  constructor
  · exact fun converges => converges.2.legible
  · intro legible
    exact ⟨analyze_isSome.mpr legible.empty, states_postFixpoint legible.empty⟩

/-- A form feed in a comment, behind which stands no instruction. -/
def formFeedText : Text := "jp 514 ;\x0crnd vx".toList

/-- The second line of it is an instruction for `analyze` alone. -/
theorem analyze_raises :
    Asm.assemble (encode formFeedText) = .ok [0x12, 0x02] ∧
    ∃ statements labels, parseSource ascii formFeedText = .ok (statements, labels) ∧
      analyze ascii labels statements = none := by
  have jump : instructionAt [⟨1, none, some "JP".toList, ["514".toList], 0x200, 2⟩,
      ⟨2, none, some "RND".toList, ["VX".toList], 0x202, 2⟩] 0x200 =
        some ⟨1, none, some "JP".toList, ["514".toList], 0x200, 2⟩ := by decide
  refine ⟨by decide, [⟨1, none, some "JP".toList, ["514".toList], 0x200, 2⟩,
    ⟨2, none, some "RND".toList, ["VX".toList], 0x202, 2⟩], [], by decide, ?_⟩
  rw [← Option.not_isSome_iff_eq_none, analyze_isSome]
  intro empty
  have legible := (states_postFixpoint empty).legible
  have there : Entered ascii [] [⟨1, none, some "JP".toList, ["514".toList], 0x200, 2⟩,
      ⟨2, none, some "RND".toList, ["VX".toList], 0x202, 2⟩] (0x202, []) :=
    .single ⟨_, jump, (0x202, []), by decide, by decide, rfl⟩
  have read := legible (0x202, []) _ there rfl "VX".toList (by decide)
  revert read
  decide

end

end ChipEight.Opt
