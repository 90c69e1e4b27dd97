import ChipEight.Disas.Closure
import ChipEight.Disas.Soundness

/-! The leaders the listing is printed with.

`analyze` makes every operand of a jump or a call a leader, whether the word is code or
not. `glue_unreachable` takes the leaders inside dead regions back, and keeps those of
live code where they are reached or begin a region.
-/

set_option autoImplicit false

namespace ChipEight.Disas

/-! ## Leaders -/

/-- Leaders are even addresses of the ROM; the entry point is one of an empty ROM too. -/
def Placed (size : Nat) (m : Map) : Prop :=
  ∀ a, m.leader a = true → a % 2 = 0 ∧ entrypoint.toNat ≤ a ∧
    (a < endOf size ∨ a = entrypoint.toNat)

theorem setLeader_leader (m : Map) (a b : Nat) (v : Bool) :
    (m.setLeader a v).leader b = if b = a then v else m.leader b :=
  Function.update_apply m.leader a v b

theorem placed_set {size : Nat} {m : Map} (placed : Placed size m) {a : Nat}
    (fine : a % 2 = 0 ∧ entrypoint.toNat ≤ a ∧ (a < endOf size ∨ a = entrypoint.toNat)) :
    Placed size (m.setLeader a true) := by
  intro b leads
  by_cases same : b = a
  · exact same ▸ fine
  · rw [setLeader_leader, if_neg same] at leads
    exact placed b leads

theorem placed_if {size : Nat} {m : Map} (placed : Placed size m) {a : Nat} {condition : Bool}
    (fine : condition = true →
      a % 2 = 0 ∧ entrypoint.toNat ≤ a ∧ (a < endOf size ∨ a = entrypoint.toNat)) :
    Placed size (m.leaderIf condition a) := by
  unfold Map.leaderIf
  split
  · rename_i met
    exact placed_set placed (fine met)
  · exact placed

theorem placed_clear {size : Nat} {m : Map} (placed : Placed size m) (a : Nat) :
    Placed size (m.setLeader a false) := by
  intro b leads
  by_cases same : b = a
  · rw [setLeader_leader, if_pos same] at leads
    cases leads
  · rw [setLeader_leader, if_neg same] at leads
    exact placed b leads

theorem labelable_fine {a size : Nat} (fine : labelable a size = true) :
    a % 2 = 0 ∧ entrypoint.toNat ≤ a ∧ (a < endOf size ∨ a = entrypoint.toNat) := by
  simp only [labelable, Bool.and_eq_true, decide_eq_true_eq, beq_iff_eq] at fine
  exact ⟨fine.2, fine.1.1, .inl (by omega)⟩

theorem analyze_placed (rom : List Byte) : Placed rom.length (analyze rom .empty) := by
  have start : Placed rom.length (Map.empty.setLeader entrypoint.toNat true) :=
    placed_set (fun a leads => by cases leads) ⟨by decide, Nat.le_refl _, .inr rfl⟩
  have even : ∀ pc ∈ wordAddresses rom.length, pc % 2 = 0 ∧ entrypoint.toNat ≤ pc := by
    intro pc here
    obtain ⟨i, -, rfl⟩ := List.mem_map.mp here
    have entry : entrypoint.toNat = 512 := rfl
    omega
  unfold analyze
  generalize Map.empty.setLeader entrypoint.toNat true = m at start
  generalize wordAddresses rom.length = pcs at even
  induction pcs generalizing m with
  | nil => exact start
  | cons pc pcs ih =>
    obtain ⟨aligned, above⟩ := even pc List.mem_cons_self
    refine ih _ ?_ fun q later => even q (List.mem_cons_of_mem pc later)
    unfold analyzeWord
    dsimp only
    have behind {k : Nat} (two : k % 2 = 0) {flag : Bool}
        (met : (flag && decide (pc + k < endOf rom.length)) = true) :
        (pc + k) % 2 = 0 ∧ entrypoint.toNat ≤ pc + k ∧
          (pc + k < endOf rom.length ∨ pc + k = entrypoint.toNat) := by
      have inside := of_decide_eq_true (Bool.and_eq_true_iff.mp met).2
      exact ⟨by omega, by omega, .inl inside⟩
    refine placed_if (placed_if (placed_if (placed_if start fun met => ?_)
      (behind (by decide))) (behind (by decide))) (behind (by decide))
    exact labelable_fine (Bool.and_eq_true_iff.mp met).2

theorem markAnchored_leader (anchor : Anchor) (len size : Nat) (m : Map) :
    (markAnchored anchor len size m).leader = m.leader := by
  obtain ⟨k, only⟩ := markAnchored_only anchor len size m
  rw [only]

theorem noteWrite_leader (anchor : Anchor) (len : Nat) (m : Map) :
    (noteWrite anchor len m).leader = m.leader := by
  obtain ⟨b, only⟩ := noteWrite_only anchor len m
  rw [only]

theorem descendWord_leader (rom : List Byte) (m : Map) (stack : List Nat) (b : Block) :
    (descendWord rom m stack b).map.leader = m.leader := by
  unfold descendWord memoryEffect
  dsimp only
  split
  case h_12 =>
    dsimp only
    split <;> simp only [markAnchored_leader, noteWrite_leader, Map.markCode]
  all_goals simp only [markAnchored_leader, Map.markCode]

theorem descend_leader (rom : List Byte) (m : Map) : (descend rom m).leader = m.leader := by
  have keeps : ∀ w w' : Walk, w.map.leader = m.leader → descendStep rom w = some w' →
      w'.map.leader = m.leader := by
    intro w w' same stepped
    cases descendStep_moves stepped with
    | pop => exact same
    | leave => exact same
    | word => rw [descendWord_leader, same]
  exact (Run.finish_reaches (descendFuel rom.length) (descendStart m)).invariant keeps rfl

theorem glueFrom_placed {size : Nat} {m : Map} (placed : Placed size m) (inside : Bool)
    (as : List Nat) : Placed size (glueFrom size inside m as) := by
  induction as generalizing m inside with
  | nil => exact placed
  | cons a as ih =>
    rw [glueFrom]
    refine ih ?_ _
    unfold glueByte
    split
    · exact placed
    split
    · exact placed_clear placed a
    · exact placed_if placed labelable_fine

theorem finalMap_placed (rom : List Byte) : Placed rom.length (finalMap rom) := by
  apply glueFrom_placed
  intro a leads
  rw [descend_leader] at leads
  exact analyze_placed rom a leads

/-! ## Gluing -/

/-- A byte inside a dead region, behind its first one. -/
def MidRun (m : Map) (a : Nat) : Prop :=
  entrypoint.toNat < a ∧ m.reach a = false ∧ m.reach (a - 1) = false

instance (m : Map) (a : Nat) : Decidable (MidRun m a) := inferInstanceAs (Decidable (_ ∧ _ ∧ _))

theorem leaderIf_leader (m : Map) (condition : Bool) (a b : Nat) :
    (m.leaderIf condition a).leader b = (m.leader b || (condition && b == a)) := by
  unfold Map.leaderIf
  split
  · rw [setLeader_leader]
    split <;> simp [*]
  · simp [*]

theorem glueByte_inside (size : Nat) (inside : Bool) (m : Map) (a : Nat) :
    (glueByte size inside m a).2 = !m.reach a := by
  unfold glueByte
  split
  · simp [*]
  split <;> simp [*]

theorem glueByte_leader (size : Nat) (inside : Bool) (m : Map) (a b : Nat) :
    (glueByte size inside m a).1.leader b =
      if b = a ∧ m.reach a = false then !inside && (labelable a size || m.leader a)
      else m.leader b := by
  unfold glueByte
  cases live : m.reach a with
  | true => simp
  | false =>
    cases inside with
    | true =>
      simp only [Bool.false_eq_true, if_false, if_true, setLeader_leader, Bool.not_true,
        Bool.false_and, and_true]
    | false =>
      simp only [Bool.false_eq_true, if_false, leaderIf_leader, Bool.not_false, Bool.true_and,
        and_true]
      split
      · rename_i same
        rw [same, beq_self_eq_true, Bool.and_true, Bool.or_comm]
      · rename_i other
        rw [beq_false_of_ne other, Bool.and_false, Bool.or_false]

theorem glueFrom_other {size : Nat} {b : Nat} {as : List Nat} (other : b ∉ as) (inside : Bool)
    (m : Map) : (glueFrom size inside m as).leader b = m.leader b := by
  induction as generalizing inside m with
  | nil => rfl
  | cons a as ih =>
    obtain ⟨ne, rest⟩ := not_or.mp (List.mem_cons.not.mp other)
    rw [glueFrom, ih rest, glueByte_leader, if_neg fun same => ne same.1]

theorem glueFrom_leader {size b : Nat} (inside : Bool) (m : Map) (lo k : Nat) (low : lo ≤ b)
    (high : b < lo + k) :
    (glueFrom size inside m (List.range' lo k)).leader b =
      if m.reach b then m.leader b
      else if b = lo then !inside && (labelable b size || m.leader b)
      else m.reach (b - 1) && (labelable b size || m.leader b) := by
  -- The run the byte before `b` is in decides, so `inside` has to be general.
  induction k generalizing inside m lo with
  | zero => omega
  | succ k ih =>
    rw [List.range'_succ, glueFrom]
    by_cases first : b = lo
    · subst first
      rw [glueFrom_other (fun here => by have := List.mem_range'_1.mp here; omega),
        glueByte_leader, if_pos rfl]
      cases m.reach b <;> simp
    · have other : ¬ (b = lo ∧ m.reach lo = false) := fun same => first same.1
      rw [ih _ _ _ (by omega) (by omega), glueByte_reach, glueByte_inside, glueByte_leader,
        if_neg other, if_neg first]
      split
      · rfl
      split
      · rename_i next
        rw [show b - 1 = lo by omega, Bool.not_not]
      · rfl

theorem glue_leader {size : Nat} {m : Map} {a : Nat} (label : labelable a size = true)
    (leads : m.leader a = true) :
    (glueUnreachable size m).leader a = true ↔ ¬ MidRun m a := by
  obtain ⟨low, high, -⟩ := labelable_iff.mp label
  have base : entrypoint.toNat = 512 := rfl
  have high' : a < endOf size := by
    unfold endOf
    omega
  unfold glueUnreachable upTo MidRun
  rw [glueFrom_leader false m _ _ (base ▸ low) (by omega), label, leads, base]
  simp only [Bool.or_true, Bool.and_true, Bool.not_false]
  cases live : m.reach a with
  | true => simp
  | false =>
    by_cases first : a = 512
    · simp [first]
    · have above : 512 < a := by omega
      simp [first, above]

/-! ## References of live code -/

theorem analyzeWord_keeps {rom : List Byte} {m : Map} {pc a : Nat} (leads : m.leader a = true) :
    (analyzeWord rom m pc).leader a = true := by
  unfold analyzeWord
  simp only [leaderIf_leader, leads, Bool.true_or]

theorem analyzeWord_target {rom : List Byte} {m : Map} {pc : Nat}
    (names : namesTarget (wordAt rom pc) = true)
    (label : labelable (nnnOf (wordAt rom pc)) rom.length = true) :
    (analyzeWord rom m pc).leader (nnnOf (wordAt rom pc)) = true := by
  unfold analyzeWord
  simp only [leaderIf_leader, names, label, beq_self_eq_true, Bool.and_true, Bool.or_true,
    Bool.true_or]

theorem analyze_target {rom : List Byte} {pc : Nat} (here : pc ∈ wordAddresses rom.length)
    (names : namesTarget (wordAt rom pc) = true)
    (label : labelable (nnnOf (wordAt rom pc)) rom.length = true) (m : Map) :
    (analyze rom m).leader (nnnOf (wordAt rom pc)) = true := by
  have kept (pcs : List Nat) (m : Map) (leads : m.leader (nnnOf (wordAt rom pc)) = true) :
      (pcs.foldl (analyzeWord rom) m).leader (nnnOf (wordAt rom pc)) = true := by
    induction pcs generalizing m with
    | nil => exact leads
    | cons q pcs ih => exact ih _ (analyzeWord_keeps leads)
  obtain ⟨front, rest, split⟩ := List.append_of_mem here
  rw [analyze, split, List.foldl_append, List.foldl_cons]
  exact kept rest _ (analyzeWord_target names label)

theorem reached_word {rom : List Byte} (fits : rom.length ≤ 3584) {pc : Nat} (even : pc % 2 = 0)
    (reached : (finalMap rom).reach pc = true) : Reachable rom pc := by
  rw [finalMap_reach] at reached
  exact (descend_marks fits (analyze_clear rom) even).mp reached

/-- Every label live code refers to is kept, the listing names it, and it does not stand
inside a dead region. -/
def LiveLabels (rom : List Byte) : Prop :=
  ∀ pc, pc % 2 = 0 → (finalMap rom).reach pc = true → namesTarget (wordAt rom pc) = true →
    labelable (nnnOf (wordAt rom pc)) rom.length = true →
      (finalMap rom).leader (nnnOf (wordAt rom pc)) = true ∧
        targetOperand (finalMap rom) (immediate12 (wordAt rom pc)) =
          .block (immediate12 (wordAt rom pc)) ∧
        ¬ MidRun (finalMap rom) (nnnOf (wordAt rom pc))

/-- Every target of live code is an instruction, or stands right behind live code. -/
def TargetsDecode (rom : List Byte) : Prop :=
  ∀ pc, Reachable rom pc → namesTarget (wordAt rom pc) = true →
    labelable (nnnOf (wordAt rom pc)) rom.length = true →
      validOpcode (wordAt rom (nnnOf (wordAt rom pc))) = true ∨
        Reachable rom (nnnOf (wordAt rom pc) - 2)

theorem Reachable.node {rom : List Byte} {q : Nat} (known : Reachable rom q) :
    Node rom q ∧ entrypoint.toNat ≤ q := by
  obtain ⟨r, ⟨rfl, node⟩, path⟩ := known
  induction path with
  | refl => exact ⟨node, Nat.le_refl _⟩
  | tail _ edge ih => exact ⟨edge.2.2, (walkable_node.mp (edge_walkable ih.2 edge)).1⟩

theorem Node.word {rom : List Byte} {pc : Nat} (node : Node rom pc) (low : entrypoint.toNat ≤ pc) :
    pc ∈ wordAddresses rom.length := by
  obtain ⟨even, high, -⟩ := node
  have base : entrypoint.toNat = 512 := rfl
  unfold endOf at high
  refine List.mem_map.mpr ⟨(pc - 512) / 2, List.mem_range.mpr (by omega), ?_⟩
  rw [base]
  omega

theorem target_follows {rom : List Byte} {pc : Nat} (names : namesTarget (wordAt rom pc) = true)
    (label : labelable (nnnOf (wordAt rom pc)) rom.length = true) :
    nnnOf (wordAt rom pc) ∈ successors rom pc := by
  have here : nnnOf (wordAt rom pc) ∈ target rom pc := by
    unfold target
    dsimp only
    rw [if_pos label]
    exact List.mem_singleton.mpr rfl
  unfold namesTarget at names
  rw [Bool.or_eq_true, beq_iff_eq, beq_iff_eq] at names
  unfold successors
  obtain jump | call := names
  · rw [jump]
    exact here
  · rw [call]
    exact List.mem_cons_of_mem _ here

theorem target_midRun {rom : List Byte} (fits : rom.length ≤ 3584) {pc : Nat}
    (known : Reachable rom pc) (names : namesTarget (wordAt rom pc) = true)
    (label : labelable (nnnOf (wordAt rom pc)) rom.length = true) :
    ¬ MidRun (finalMap rom) (nnnOf (wordAt rom pc)) ↔
      validOpcode (wordAt rom (nnnOf (wordAt rom pc))) = true ∨
        Reachable rom (nnnOf (wordAt rom pc) - 2) := by
  have marks (q : Nat) (even : q % 2 = 0) := @descend_marks rom fits _ (analyze_clear rom) q even
  have whole := (descendWalk_sweep fits (analyze_clear rom)).whole
  have follows := target_follows names label
  obtain ⟨low, high, even⟩ := labelable_iff.mp label
  have base : entrypoint.toNat = 512 := rfl
  generalize nnnOf (wordAt rom pc) = nnn at *
  have node : Node rom nnn ↔ validOpcode (wordAt rom nnn) = true :=
    ⟨fun node => node.2.2, fun valid => ⟨even, by unfold endOf; omega, valid⟩⟩
  have decodes : Reachable rom nnn ↔ validOpcode (wordAt rom nnn) = true :=
    ⟨fun reached => node.mp reached.node.1,
      fun valid => known.step ⟨known.node.1, follows, node.mpr valid⟩⟩
  unfold MidRun
  rw [finalMap_reach]
  unfold mapOf
  rw [← decodes, ← marks nnn even, ← marks (nnn - 2) (by omega), base]
  by_cases first : nnn = 512
  · -- The word at the entry point is reached if any word is.
    subst first
    have root : (descend rom (analyze rom .empty)).reach 512 = true := by
      obtain ⟨r, ⟨rfl, node⟩, -⟩ := known
      exact (marks 512 rfl).mpr (.start ⟨rfl, node⟩)
    simp [root]
  · have word : (descend rom (analyze rom .empty)).reach (nnn - 1) =
        (descend rom (analyze rom .empty)).reach (nnn - 2) := by
      have same := whole (nnn - 2) (by omega)
      rwa [show nnn - 2 + 1 = nnn - 1 by omega] at same
    have above : 512 < nnn := by omega
    rw [word, not_and, not_and, Bool.not_eq_false]
    constructor
    · intro outside
      by_cases live : (descend rom (analyze rom .empty)).reach nnn = true
      · exact .inl live
      · exact .inr (outside above (Bool.eq_false_iff.mpr live))
    · rintro (live | before) - dead
      · rw [live] at dead
        cases dead
      · exact before

/-- Labels of live code are kept exactly where every target of it decodes or continues it. -/
theorem liveLabels_iff {rom : List Byte} (fits : rom.length ≤ 3584) :
    LiveLabels rom ↔ TargetsDecode rom := by
  constructor
  · intro live pc known names label
    have even := known.node.1.1
    have reached : (finalMap rom).reach pc = true := by
      rw [finalMap_reach]
      exact (descend_marks fits (analyze_clear rom) even).mpr known
    exact (target_midRun fits known names label).mp (live pc even reached names label).2.2
  · intro decodes pc even reached names label
    have known := reached_word fits even reached
    have outside := (target_midRun fits known names label).mpr (decodes pc known names label)
    have leads : (finalMap rom).leader (nnnOf (wordAt rom pc)) = true := by
      apply (glue_leader label ?_).mpr
      · intro inside
        apply outside
        unfold MidRun at inside ⊢
        rw [finalMap_reach]
        exact inside
      · rw [descend_leader]
        exact analyze_target (known.node.1.word known.node.2) names label _
    refine ⟨leads, ?_, outside⟩
    rw [targetOperand, ← nnnOf, leads, if_pos rfl]

theorem liveLabels_loop : LiveLabels [0x12#8, 0x00#8] ↔ TargetsDecode [0x12#8, 0x00#8] :=
  liveLabels_iff (by decide +kernel)

/-- A jump into the middle of bytes that are no instructions. -/
def jumpIntoData : List Byte := [0x12, 0x04, 0xff, 0xff, 0xff, 0xff]

theorem liveLabels_lost : ¬ LiveLabels jumpIntoData := by
  intro live
  have leads := (live 512 (by decide) (by decide) (by decide) (by decide)).1
  exact absurd leads (by decide)

end ChipEight.Disas
