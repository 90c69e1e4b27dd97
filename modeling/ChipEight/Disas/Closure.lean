import ChipEight.Disas.Reach
import Mathlib.Tactic.IntervalCases

/-! The descent marks the closure of the control flow graph. -/

set_option autoImplicit false

namespace ChipEight.Disas

/-! ## The graph -/

/-- The nodes: even addresses of the ROM that hold a valid opcode. -/
def Node (rom : List Byte) (q : Nat) : Prop :=
  q % 2 = 0 ∧ q + 1 < endOf rom.length ∧ validOpcode (wordAt rom q) = true

/-- The operand of a jump, if it can have a label. -/
def target (rom : List Byte) (pc : Nat) : List Nat :=
  let nnn := nnnOf (wordAt rom pc)
  if labelable nnn rom.length then [nnn] else []

/-- Where the word at `pc` passes control to, so far as its text says. -/
def successors (rom : List Byte) (pc : Nat) : List Nat :=
  match opClass (wordAt rom pc) with
  | 0x0 => if wordAt rom pc == 0x00ee#16 then [] else [pc + 2]
  | 0x1 => target rom pc
  | 0xb => target rom pc
  | 0x2 => (pc + 2) :: target rom pc
  | 0x3 => [pc + 2, pc + 4]
  | 0x4 => [pc + 2, pc + 4]
  | 0x5 => [pc + 2, pc + 4]
  | 0x9 => [pc + 2, pc + 4]
  | 0xe => [pc + 2, pc + 4]
  | _ => [pc + 2]

def StaticEdge (rom : List Byte) (p q : Nat) : Prop :=
  Node rom p ∧ q ∈ successors rom p ∧ Node rom q

/-- The entry point, if there is a word to execute at it. -/
def StaticRoot (rom : List Byte) (q : Nat) : Prop := q = entrypoint.toNat ∧ Node rom q

abbrev Reachable (rom : List Byte) : Nat → Prop :=
  Search.Reachable (StaticRoot rom) (StaticEdge rom)

theorem walkable_node {rom : List Byte} {q : Nat} :
    Walkable rom q ↔ entrypoint.toNat ≤ q ∧ Node rom q := by
  unfold Walkable labelable Node
  simp only [Bool.and_eq_true, decide_eq_true_eq, beq_iff_eq]
  tauto

/-! ## A word of the descent -/

theorem mem_pushIf_met {condition : Bool} {a q : Nat} {stack : List Nat}
    (met : q = a → condition = true) : q ∈ pushIf condition a stack ↔ q ∈ stack ∨ q = a := by
  unfold pushIf
  split
  · exact List.mem_cons.trans or_comm
  · rename_i unmet
    exact ⟨.inl, fun here => here.resolve_right fun same => unmet (met same)⟩

theorem descendWord_successors {rom : List Byte} {m : Map} {stack : List Nat} {b : Block} {q : Nat}
    (label : labelable q rom.length = true) :
    (q ∈ (descendWord rom m stack b).stack ∨
        ∃ anchor, (descendWord rom m stack b).block = some ⟨q, anchor⟩) ↔
      q ∈ stack ∨ q ∈ successors rom b.pc := by
  have inside : q = b.pc + 4 → decide (b.pc + 4 < endOf rom.length) = true := by
    rintro rfl
    have high := (labelable_iff.mp label).2.1
    have base : entrypoint.toNat = 512 := rfl
    refine decide_eq_true ?_
    unfold endOf
    omega
  have known : q = nnnOf (wordAt rom b.pc) →
      labelable (nnnOf (wordAt rom b.pc)) rom.length = true := by
    rintro rfl
    exact label
  have named : q ∈ target rom b.pc ↔ q = nnnOf (wordAt rom b.pc) := by
    unfold target
    dsimp only
    split
    · exact List.mem_singleton
    · rename_i none
      exact ⟨fun here => absurd here List.not_mem_nil, fun same => absurd (known same) none⟩
  have next (anchor : Anchor) :
      (∃ anchor', (some ⟨b.pc + 2, anchor⟩ : Option Block) = some ⟨q, anchor'⟩) ↔ q = b.pc + 2 := by
    simp only [Option.some.injEq, Block.mk.injEq, exists_and_left, exists_eq', and_true]
    exact eq_comm
  have ended : ¬ ∃ anchor, (none : Option Block) = some ⟨q, anchor⟩ := by
    rintro ⟨anchor, same⟩
    cases same
  have straight (anchor : Anchor) :
      (q ∈ stack ∨ ∃ anchor', (some ⟨b.pc + 2, anchor⟩ : Option Block) = some ⟨q, anchor'⟩) ↔
        q ∈ stack ∨ q ∈ [b.pc + 2] := by
    rw [next, List.mem_singleton]
  have skips :
      (q ∈ pushIf (b.pc + 4 < endOf rom.length) (b.pc + 4) stack ∨
          ∃ anchor', (some ⟨b.pc + 2, b.anchor⟩ : Option Block) = some ⟨q, anchor'⟩) ↔
        q ∈ stack ∨ q ∈ [b.pc + 2, b.pc + 4] := by
    rw [next, mem_pushIf_met inside, List.mem_cons, List.mem_singleton, or_assoc,
      @or_comm (q = b.pc + 4)]
  have jumps :
      (q ∈ pushIf (labelable (nnnOf (wordAt rom b.pc)) rom.length) (nnnOf (wordAt rom b.pc)) stack ∨
          ∃ anchor', (none : Option Block) = some ⟨q, anchor'⟩) ↔
        q ∈ stack ∨ q ∈ target rom b.pc := by
    rw [mem_pushIf_met known, named]
    exact or_iff_left ended
  have calls :
      (q ∈ pushIf (labelable (nnnOf (wordAt rom b.pc)) rom.length) (nnnOf (wordAt rom b.pc)) stack ∨
          ∃ anchor', (some ⟨b.pc + 2, b.anchor⟩ : Option Block) = some ⟨q, anchor'⟩) ↔
        q ∈ stack ∨ q ∈ (b.pc + 2) :: target rom b.pc := by
    rw [next, mem_pushIf_met known, List.mem_cons, named, or_assoc,
      @or_comm (q = nnnOf (wordAt rom b.pc))]
  -- One of the four by the class of the word; class 0 ends the walk at `RET` only.
  have bound := opClass_lt (wordAt rom b.pc)
  unfold descendWord successors
  dsimp only
  generalize opClass (wordAt rom b.pc) = cls at *
  interval_cases cls
  · by_cases ret : (wordAt rom b.pc == 0x00ee#16) = true
    · rw [if_pos ret, if_pos ret]
      exact (or_iff_left ended).trans (or_iff_left List.not_mem_nil).symm
    · rw [if_neg ret, if_neg ret]
      exact straight b.anchor
  all_goals first | exact straight _ | exact skips | exact jumps | exact calls

/-! ## The descent -/

/-- What the descent has found can be reached. -/
def Grounded (rom : List Byte) (w : Walk) : Prop :=
  ∀ q, Marked w q ∨ Pending rom w q → Reachable rom q

theorem grounded_start {rom : List Byte} {m : Map} (clear : ∀ a, m.reach a = false) :
    Grounded rom (descendStart m) := by
  rintro q (⟨-, marked⟩ | ⟨walk, waits | ⟨anchor, none⟩⟩)
  · rw [descendStart, clear] at marked
    cases marked
  · obtain rfl := List.mem_singleton.mp waits
    exact .start ⟨rfl, (walkable_node.mp walk).2⟩
  · cases none

theorem grounded_word {rom : List Byte} {m : Map} {stack : List Nat} {b : Block}
    (grounded : Grounded rom ⟨m, stack, some b⟩) (aligned : Aligned b.pc)
    (inside : b.pc + 1 < endOf rom.length) (valid : validOpcode (wordAt rom b.pc) = true) :
    Grounded rom (descendWord rom m stack b) := by
  have node : Node rom b.pc := ⟨aligned.2, inside, valid⟩
  have here : Reachable rom b.pc :=
    grounded b.pc (.inr ⟨walkable_node.mpr ⟨aligned.1, node⟩, .inr ⟨b.anchor, rfl⟩⟩)
  rintro q (marked | ⟨walk, waits⟩)
  · obtain rfl | old := (descendWord_marked aligned.2).mp marked
    · exact here
    · exact grounded q (.inl old)
  · obtain old | new := (descendWord_successors walk.1).mp waits
    · exact grounded q (.inr ⟨walk, .inl old⟩)
    · exact here.step ⟨node, new, (walkable_node.mp walk).2⟩

/-- Between two steps of the descent every edge out of a marked word leads to a word that
is marked or pending, and a path leads to each of these. -/
structure Explored (rom : List Byte) (w : Walk) : Prop where
  sweep : Sweep rom w
  grounded : Grounded rom w
  covers : Search.Covers (StaticRoot rom) (StaticEdge rom) (Marked w) (Pending rom w)

theorem explored_start {rom : List Byte} {m : Map} (clear : ∀ a, m.reach a = false) :
    Explored rom (descendStart m) where
  sweep := sweep_start clear
  grounded := grounded_start clear
  covers := by
    refine ⟨fun v isRoot => .inr ?_, fun v w marked => ?_⟩
    · rw [isRoot.1]
      exact ⟨walkable_node.mpr ⟨Nat.le_refl _, isRoot.1 ▸ isRoot.2⟩, .inl List.mem_cons_self⟩
    · exact absurd marked.2 (by simp [descendStart, clear])

theorem edge_walkable {rom : List Byte} {p q : Nat} (low : entrypoint.toNat ≤ p)
    (edge : StaticEdge rom p q) : Walkable rom q := by
  obtain ⟨-, follows, node⟩ := edge
  refine walkable_node.mpr ⟨?_, node⟩
  have named (here : q ∈ target rom p) : entrypoint.toNat ≤ q := by
    unfold target at here
    dsimp only at here
    split at here
    · rename_i label
      rw [List.mem_singleton.mp here]
      exact (labelable_iff.mp label).1
    · cases here
  unfold successors at follows
  split at follows
  case h_1 =>
    split at follows
    · cases follows
    · rw [List.mem_singleton.mp follows]
      omega
  case h_2 | h_3 => exact named follows
  case h_4 =>
    obtain rfl | here := List.mem_cons.mp follows
    · omega
    · exact named here
  case h_10 =>
    rw [List.mem_singleton.mp follows]
    omega
  all_goals
    obtain rfl | here := List.mem_cons.mp follows
    · omega
    · rw [List.mem_singleton.mp here]
      omega

theorem explored_word {rom : List Byte} (fits : rom.length ≤ 3584) {m : Map} {stack : List Nat}
    {b : Block} (explored : Explored rom ⟨m, stack, some b⟩)
    (inside : b.pc + 1 < endOf rom.length) (valid : validOpcode (wordAt rom b.pc) = true) :
    Explored rom (descendWord rom m stack b) := by
  have aligned := explored.sweep.blockAligned b rfl
  have marks {p : Nat} := @descendWord_marked rom m stack b p aligned.2
  refine ⟨sweep_word fits explored.sweep inside valid,
    grounded_word explored.grounded aligned inside valid, ?_⟩
  refine explored.covers.visit (fun p older => marks.mpr (.inr older))
    (fun p marked => (marks.mp marked).symm) (marks.mpr (.inl rfl)) ?_ ?_
  · rintro q ⟨walk, waits | ⟨anchor, here⟩⟩
    · exact .inr ⟨walk, (descendWord_successors walk.1).mpr (.inl waits)⟩
    · cases here
      exact .inl rfl
  · intro q edge
    have walk := edge_walkable aligned.1 edge
    exact .inr ⟨walk, (descendWord_successors walk.1).mpr (.inr edge.2.1)⟩

theorem descendStep_explored {rom : List Byte} (fits : rom.length ≤ 3584) {w w' : Walk}
    (explored : Explored rom w) (stepped : descendStep rom w = some w') : Explored rom w' := by
  have sweep := descendStep_sweep fits explored.sweep stepped
  cases descendStep_moves stepped with
  | pop =>
    refine ⟨sweep, ?_, explored.covers.drop pending_pop⟩
    rintro q (marked | ⟨walk, older | ⟨anchor, here⟩⟩)
    · exact explored.grounded q (.inl marked)
    · exact explored.grounded q (.inr ⟨walk, .inl (List.mem_cons_of_mem _ older)⟩)
    · cases here
      exact explored.grounded _ (.inr ⟨walk, .inl List.mem_cons_self⟩)
  | word inside fresh valid => exact explored_word fits explored inside valid
  | leave dead =>
    refine ⟨sweep, ?_, explored.covers.drop
      (pending_leave (explored.sweep.blockAligned _ rfl).2 dead)⟩
    rintro q (marked | ⟨walk, older | ⟨anchor, none⟩⟩)
    · exact explored.grounded q (.inl marked)
    · exact explored.grounded q (.inr ⟨walk, .inl older⟩)
    · cases none

theorem descendWalk_explored {rom : List Byte} (fits : rom.length ≤ 3584) {m : Map}
    (clear : ∀ a, m.reach a = false) : Explored rom (descendWalk rom m) :=
  (Run.finish_reaches _ _).invariant (fun _ _ => descendStep_explored fits) (explored_start clear)

theorem descend_marks {rom : List Byte} (fits : rom.length ≤ 3584) {m : Map}
    (clear : ∀ a, m.reach a = false) {pc : Nat} (even : pc % 2 = 0) :
    (descend rom m).reach pc = true ↔ Reachable rom pc := by
  have explored := descendWalk_explored fits clear
  obtain ⟨noStack, noBlock⟩ := descendWalk_done rom m
  have done (q : Nat) : ¬ Pending rom (descendWalk rom m) q := by
    rintro ⟨-, waits | ⟨anchor, here⟩⟩
    · rw [noStack] at waits
      cases waits
    · rw [noBlock] at here
      cases here
  have marked_iff := explored.covers.exact done fun q marked => explored.grounded q (.inl marked)
  exact ⟨fun marked => (marked_iff pc).mp ⟨even, marked⟩, fun known => ((marked_iff pc).mpr known).2⟩

/-! ## Code and data -/

/-- The bytes classified as code are those marked as reached. -/
def Classified (m : Map) : Prop := ∀ a, m.kind a = .code ↔ m.reach a = true

theorem markByte_kind (m : Map) (a b : Nat) :
    (markByte m a).kind b = .code ↔ m.kind b = .code := by
  unfold markByte
  split
  · rename_i data
    obtain ⟨-, other⟩ := Bool.and_eq_true_iff.mp data
    dsimp only
    rw [Function.update_apply]
    split
    · rename_i same
      subst same
      exact ⟨Kind.noConfusion, fun code => absurd code (bne_iff_ne.mp other)⟩
    · rfl
  · rfl

theorem markData_kind (addr len size : Nat) (m : Map) (b : Nat) :
    (markData addr len size m).kind b = .code ↔ m.kind b = .code := by
  unfold markData
  generalize upTo addr (min (addr + len) (endOf size)) = as
  induction as generalizing m with
  | nil => rfl
  | cons a as ih => rw [List.foldl_cons, ih, markByte_kind]

theorem markAnchored_kind (anchor : Anchor) (len size : Nat) (m : Map) (b : Nat) :
    (markAnchored anchor len size m).kind b = .code ↔ m.kind b = .code := by
  cases anchor with
  | none => rfl
  | some addr => exact markData_kind addr len size m b

theorem noteWrite_kind (anchor : Anchor) (len : Nat) (m : Map) :
    (noteWrite anchor len m).kind = m.kind := by
  obtain ⟨b, only⟩ := noteWrite_only anchor len m
  rw [only]

theorem memoryEffect_kind (op : Word) (anchor : Anchor) (size : Nat) (m : Map) (b : Nat) :
    (memoryEffect op anchor size m).kind b = .code ↔ m.kind b = .code := by
  unfold memoryEffect
  dsimp only
  split <;> simp only [markAnchored_kind, noteWrite_kind]

theorem descendWord_kind (rom : List Byte) (m : Map) (stack : List Nat) (b : Block) (a : Nat) :
    (descendWord rom m stack b).map.kind a = .code ↔ (m.markCode b.pc).kind a = .code := by
  unfold descendWord
  dsimp only
  split <;> simp only [markAnchored_kind, memoryEffect_kind]

theorem markCode_kind (m : Map) (pc a : Nat) :
    (m.markCode pc).kind a = .code ↔ a = pc ∨ a = pc + 1 ∨ m.kind a = .code := by
  simp only [Map.markCode, Function.update_apply]
  split
  · simp [*]
  split
  · simp [*]
  · simp [*]

theorem descendStep_classified {rom : List Byte} {w w' : Walk} (classified : Classified w.map)
    (stepped : descendStep rom w = some w') : Classified w'.map := by
  cases descendStep_moves stepped with
  | pop => exact classified
  | leave => exact classified
  | word inside fresh valid =>
    intro a
    rw [descendWord_kind, descendWord_reach, markCode_kind, markCode_reach, classified a]

theorem descend_classified {rom : List Byte} {m : Map} (classified : Classified m) :
    Classified (descend rom m) :=
  @Run.finish_invariant _ _ (fun w : Walk => Classified w.map) (fun _ _ => descendStep_classified) _ _
    classified

theorem analyze_kind (rom : List Byte) (m : Map) : (analyze rom m).kind = m.kind := by
  obtain ⟨l, only⟩ := analyze_only rom m
  rw [only]

theorem analyze_clear (rom : List Byte) (a : Nat) : (analyze rom .empty).reach a = false := by
  rw [analyze_reach]
  rfl

/-- The descent marks the words a path leads to from the entry point, and classifies
their bytes, and no others, as code. -/
theorem descend_exact {rom : List Byte} (fits : rom.length ≤ 3584) :
    (∀ pc, pc % 2 = 0 → entrypoint.toNat ≤ pc → pc < endOf rom.length →
        ((descend rom (analyze rom .empty)).reach pc = true ↔ Reachable rom pc)) ∧
      ∀ a, (descend rom (analyze rom .empty)).kind a = .code ↔
        (descend rom (analyze rom .empty)).reach a = true := by
  constructor
  · intro pc even _ _
    exact descend_marks fits (analyze_clear rom) even
  · apply descend_classified
    intro a
    rw [analyze_kind, analyze_clear]
    exact ⟨Kind.noConfusion, Bool.noConfusion⟩

theorem descend_exact_loop :
    (∀ pc, pc % 2 = 0 → entrypoint.toNat ≤ pc → pc < endOf [0x12#8, 0x00#8].length →
        ((descend [0x12, 0x00] (analyze [0x12, 0x00] .empty)).reach pc = true ↔
          Reachable [0x12, 0x00] pc)) ∧
      ∀ a, (descend [0x12, 0x00] (analyze [0x12, 0x00] .empty)).kind a = .code ↔
        (descend [0x12, 0x00] (analyze [0x12, 0x00] .empty)).reach a = true :=
  descend_exact (by decide)

end ChipEight.Disas
