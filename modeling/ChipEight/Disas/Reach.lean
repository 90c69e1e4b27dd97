import ChipEight.Disas.Descend
import ChipEight.Library.Search
import ChipEight.Machine.Flow
import Mathlib.Data.Finset.Card

/-! What the descent reaches.

The descent stops, since every word it walks marks two bytes that were not marked. When
it stops the words it has marked are closed under the transfers of control whose target
it is willing to walk.
-/

set_option autoImplicit false

namespace ChipEight.Disas

/-! ## The map -/

theorem leaderIf_reach (m : Map) (condition : Bool) (a : Nat) :
    (m.leaderIf condition a).reach = m.reach := by
  obtain ⟨l, only⟩ := leaderIf_only m condition a
  rw [only]

theorem analyze_reach (rom : List Byte) (m : Map) : (analyze rom m).reach = m.reach := by
  obtain ⟨l, only⟩ := analyze_only rom m
  rw [only]

theorem markAnchored_reach (anchor : Anchor) (len size : Nat) (m : Map) :
    (markAnchored anchor len size m).reach = m.reach := by
  obtain ⟨k, only⟩ := markAnchored_only anchor len size m
  rw [only]

theorem noteWrite_reach (anchor : Anchor) (len : Nat) (m : Map) :
    (noteWrite anchor len m).reach = m.reach := by
  obtain ⟨b, only⟩ := noteWrite_only anchor len m
  rw [only]

theorem memoryEffect_reach (op : Word) (anchor : Anchor) (size : Nat) (m : Map) :
    (memoryEffect op anchor size m).reach = m.reach := by
  unfold memoryEffect
  dsimp only
  split <;> simp only [markAnchored_reach, noteWrite_reach]

theorem descendWord_reach (rom : List Byte) (m : Map) (stack : List Nat) (b : Block) :
    (descendWord rom m stack b).map.reach = (m.markCode b.pc).reach := by
  unfold descendWord
  dsimp only
  split <;> simp only [markAnchored_reach, memoryEffect_reach]

theorem markCode_reach (m : Map) (pc a : Nat) :
    (m.markCode pc).reach a = true ↔ a = pc ∨ a = pc + 1 ∨ m.reach a = true := by
  simp only [Map.markCode, Function.update_apply]
  split
  · simp [*]
  split
  · simp [*]
  · simp [*]

/-! ## The stack -/

/-- Walking a word puts at most one address on the stack: an even one of the ROM, or
the one behind a skipped instruction. -/
theorem descendWord_stack (rom : List Byte) (m : Map) (stack : List Nat) (b : Block) :
    (descendWord rom m stack b).stack = stack ∨
      ∃ q, (descendWord rom m stack b).stack = q :: stack ∧
        (labelable q rom.length = true ∨ q = b.pc + 4) := by
  have push (condition : Bool) (a : Nat)
      (fine : condition = true → labelable a rom.length = true ∨ a = b.pc + 4) :
      pushIf condition a stack = stack ∨ ∃ q, pushIf condition a stack = q :: stack ∧
        (labelable q rom.length = true ∨ q = b.pc + 4) := by
    unfold pushIf
    split
    · rename_i met
      exact .inr ⟨a, rfl, fine met⟩
    · exact .inl rfl
  unfold descendWord
  dsimp only
  split
  case h_2 | h_3 | h_9 => exact push _ _ .inl
  case h_4 | h_5 | h_6 | h_7 | h_11 => exact push _ _ fun _ => .inr rfl
  all_goals exact .inl rfl

theorem descendWord_block (rom : List Byte) (m : Map) (stack : List Nat) (b : Block) :
    (descendWord rom m stack b).block = none ∨
      ∃ anchor, (descendWord rom m stack b).block = some ⟨b.pc + 2, anchor⟩ := by
  unfold descendWord
  dsimp only
  split
  case h_1 =>
    split
    · exact .inl rfl
    · exact .inr ⟨_, rfl⟩
  case h_2 | h_9 => exact .inl rfl
  all_goals exact .inr ⟨_, rfl⟩

/-! ## A step of the descent -/

/-- What a step does. -/
inductive Moves (rom : List Byte) : Walk → Walk → Prop where
  | pop {m : Map} {pc : Nat} {stack : List Nat} :
      Moves rom ⟨m, pc :: stack, none⟩ ⟨m, stack, some ⟨pc, none⟩⟩
  | word {m : Map} {stack : List Nat} {b : Block} (inside : b.pc + 1 < endOf rom.length)
      (fresh : m.reach b.pc = false) (valid : validOpcode (wordAt rom b.pc) = true) :
      Moves rom ⟨m, stack, some b⟩ (descendWord rom m stack b)
  | leave {m : Map} {stack : List Nat} {b : Block}
      (dead : b.pc + 1 < endOf rom.length → validOpcode (wordAt rom b.pc) = true →
        m.reach b.pc = true) :
      Moves rom ⟨m, stack, some b⟩ ⟨m, stack, none⟩

theorem descendStep_moves {rom : List Byte} {w w' : Walk} (stepped : descendStep rom w = some w') :
    Moves rom w w' := by
  obtain ⟨m, stack, block⟩ := w
  unfold descendStep at stepped
  dsimp only at stepped
  split at stepped
  · split at stepped
    · cases stepped
    · cases stepped
      exact .pop
  · rename_i b
    split at stepped
    · rename_i fresh
      obtain ⟨inside, clear⟩ := Bool.and_eq_true_iff.mp fresh
      split at stepped
      · rename_i valid
        cases stepped
        exact .word (of_decide_eq_true inside) (Bool.not_eq_true' _ ▸ clear) valid
      · rename_i invalid
        cases stepped
        exact .leave fun _ valid => absurd valid invalid
    · rename_i stale
      cases stepped
      refine .leave fun inside _ => ?_
      by_contra clear
      apply stale
      rw [Bool.eq_false_iff.mpr clear, Bool.not_false, Bool.and_true, decide_eq_true_eq]
      exact inside

/-! ## The descent stops -/

/-- The bytes below `limit` not marked as reachable. -/
def unreached (limit : Nat) (m : Map) : Finset Nat :=
  (Finset.range limit).filter fun a => m.reach a = false

def measure (size : Nat) (w : Walk) : Nat :=
  3 * (unreached (endOf size) w.map).card + 2 * w.stack.length + if w.block.isSome then 1 else 0

theorem unreached_markCode {limit pc : Nat} {m m' : Map} (small : pc < limit)
    (fresh : m.reach pc = false) (marked : m'.reach = (m.markCode pc).reach) :
    (unreached limit m').card < (unreached limit m).card := by
  apply Finset.card_lt_card
  rw [Finset.ssubset_iff_of_subset]
  · refine ⟨pc, Finset.mem_filter.mpr ⟨Finset.mem_range.mpr small, fresh⟩, ?_⟩
    intro still
    have clear := (Finset.mem_filter.mp still).2
    have set := (markCode_reach m pc pc).mpr (.inl rfl)
    rw [← marked, clear] at set
    cases set
  · intro a left
    obtain ⟨below, clear⟩ := Finset.mem_filter.mp left
    refine Finset.mem_filter.mpr ⟨below, ?_⟩
    apply Bool.eq_false_iff.mpr
    intro set
    have kept := (markCode_reach m pc a).mpr (.inr (.inr set))
    rw [← marked, clear] at kept
    cases kept

theorem descendStep_lowers {rom : List Byte} {w w' : Walk} (stepped : descendStep rom w = some w') :
    measure rom.length w' < measure rom.length w := by
  cases descendStep_moves stepped with
  | pop =>
    simp only [measure, List.length_cons, Option.isSome_some, Option.isSome_none, if_true,
      Bool.false_eq_true, if_false]
    omega
  | @word m stack b inside fresh valid =>
    have marks := unreached_markCode (show b.pc < endOf rom.length by omega) fresh
      (descendWord_reach rom m stack b)
    have height : (descendWord rom m stack b).stack.length ≤ stack.length + 1 := by
      obtain same | ⟨q, pushed, -⟩ := descendWord_stack rom m stack b
      · rw [same]
        exact Nat.le_succ _
      · rw [pushed]
        exact Nat.le_refl _
    have one : (if (descendWord rom m stack b).block.isSome then 1 else 0) ≤ 1 := by
      split <;> decide
    simp only [measure, Option.isSome_some, if_true]
    omega
  | leave =>
    simp only [measure, Option.isSome_some, Option.isSome_none, if_true, Bool.false_eq_true,
      if_false]
    omega

theorem descendWalk_stops (rom : List Byte) (m : Map) :
    descendStep rom (descendWalk rom m) = none := by
  apply Run.finish_stops fun s t => descendStep_lowers
  have few : (unreached (endOf rom.length) m).card ≤ endOf rom.length :=
    (Finset.card_filter_le _ _).trans_eq (Finset.card_range _)
  simp only [measure, descendFuel, descendStart, List.length_singleton, Option.isSome_none,
    Bool.false_eq_true, if_false]
  omega

theorem descendWalk_done (rom : List Byte) (m : Map) :
    (descendWalk rom m).stack = [] ∧ (descendWalk rom m).block = none := by
  have stops := descendWalk_stops rom m
  unfold descendStep at stops
  split at stops
  · rename_i noBlock
    split at stops
    · rename_i empty
      exact ⟨empty, noBlock⟩
    · cases stops
  · split at stops
    · split at stops <;> cases stops
    · cases stops

/-! ## The words it marks -/

/-- The words the descent is willing to walk. -/
def Walkable (rom : List Byte) (q : Nat) : Prop :=
  labelable q rom.length = true ∧ validOpcode (wordAt rom q) = true

instance (rom : List Byte) (q : Nat) : Decidable (Walkable rom q) :=
  inferInstanceAs (Decidable (_ ∧ _))

/-- The word at `p` can pass control to `q`. -/
def Flow (rom : List Byte) (p q : Nat) : Prop :=
  ∃ i, decode (wordAt rom p) = some i ∧ ∃ t ∈ i.flows (BitVec.ofNat 16 p), t.toNat = q

def Edge (rom : List Byte) (p q : Nat) : Prop := Flow rom p q ∧ Walkable rom q

theorem labelable_iff {a size : Nat} :
    labelable a size = true ↔ 512 ≤ a ∧ a + 1 < 512 + size ∧ a % 2 = 0 := by
  have base : entrypoint.toNat = 512 := rfl
  simp only [labelable, endOf, base, Bool.and_eq_true, decide_eq_true_eq, beq_iff_eq, and_assoc]

theorem mem_pushIf_self {condition : Bool} (met : condition = true) (a : Nat)
    (stack : List Nat) : a ∈ pushIf condition a stack := by
  rw [pushIf, if_pos met]
  exact List.mem_cons_self

theorem descendWord_flows {rom : List Byte} {m : Map} {stack : List Nat} {b : Block} {i : Insn}
    {t : Word} (low : b.pc + 4 < 65536) (valid : validOpcode (wordAt rom b.pc) = true)
    (decoded : decode (wordAt rom b.pc) = some i) (flows : t ∈ i.flows (BitVec.ofNat 16 b.pc))
    (label : labelable t.toNat rom.length = true) :
    t.toNat ∈ (descendWord rom m stack b).stack ∨
      ∃ anchor, (descendWord rom m stack b).block = some ⟨t.toNat, anchor⟩ := by
  have two : (BitVec.ofNat 16 b.pc + 2#16).toNat = b.pc + 2 := by
    simp only [BitVec.toNat_add, BitVec.toNat_ofNat]
    omega
  have four : (BitVec.ofNat 16 b.pc + 4#16).toNat = b.pc + 4 := by
    simp only [BitVec.toNat_add, BitVec.toNat_ofNat]
    omega
  have behind : t = BitVec.ofNat 16 b.pc + 2#16 → t.toNat = b.pc + 2 := fun same => same ▸ two
  have inside : t = BitVec.ofNat 16 b.pc + 4#16 → t.toNat = b.pc + 4 ∧
      decide (b.pc + 4 < endOf rom.length) = true := by
    intro same
    rw [same, four] at label
    have high := (labelable_iff.mp label).2.1
    have base : entrypoint.toNat = 512 := rfl
    refine ⟨same ▸ four, decide_eq_true ?_⟩
    unfold endOf
    omega
  unfold descendWord
  dsimp only
  revert valid decoded
  generalize wordAt rom b.pc = op
  intro valid decoded
  unfold decode at decoded
  split at decoded
  · rename_i isCls
    obtain rfl := eq_of_beq isCls
    cases decoded
    rw [behind (List.mem_singleton.mp flows)]
    exact .inr ⟨_, rfl⟩
  rename_i notCls
  split at decoded
  · cases decoded
    cases flows
  rename_i notRet
  unfold validOpcode at valid
  rw [Bool.eq_false_iff.mpr notCls, Bool.eq_false_iff.mpr notRet] at valid
  -- A straight word goes on in its block; a skip pushes the address behind the next word.
  have straight {stack : List Nat} {anchor : Anchor} (next : t = BitVec.ofNat 16 b.pc + 2#16) :
      t.toNat ∈ stack ∨ ∃ anchor', some (⟨b.pc + 2, anchor⟩ : Block) = some ⟨t.toNat, anchor'⟩ := by
    rw [behind next]
    exact .inr ⟨anchor, rfl⟩
  have skips {anchor : Anchor}
      (one : t ∈ [BitVec.ofNat 16 b.pc + 2#16, BitVec.ofNat 16 b.pc + 4#16]) :
      t.toNat ∈ pushIf (b.pc + 4 < endOf rom.length) (b.pc + 4) stack ∨
        ∃ anchor', some (⟨b.pc + 2, anchor⟩ : Block) = some ⟨t.toNat, anchor'⟩ := by
    obtain next | rest := List.mem_cons.mp one
    · exact straight next
    · obtain ⟨same, met⟩ := inside (List.mem_singleton.mp rest)
      rw [same]
      exact .inl (mem_pushIf_self met _ _)
  have named (same : t = (immediate12 op).setWidth 16) :
      t.toNat ∈ pushIf (labelable (nnnOf op) rom.length) (nnnOf op) stack := by
    have value : t.toNat = nnnOf op := by
      rw [same, nnnOf, BitVec.toNat_setWidth]
      exact Nat.mod_eq_of_lt (Nat.lt_of_lt_of_le (immediate12 op).isLt (by decide))
    rw [value] at label ⊢
    exact mem_pushIf_self label _ _
  split at decoded <;> rename_i cls <;> try rw [cls] at valid ⊢
  case h_1 => cases valid
  case h_2 =>
    cases decoded
    exact .inl (named (List.mem_singleton.mp flows))
  case h_3 =>
    cases decoded
    obtain target | rest := List.mem_cons.mp flows
    · exact .inl (named target)
    · exact straight (List.mem_singleton.mp rest)
  case h_4 | h_5 | h_6 | h_10 =>
    cases decoded
    exact skips flows
  case h_9 =>
    obtain ⟨o, -, rfl⟩ := Option.map_eq_some_iff.mp decoded
    exact straight (List.mem_singleton.mp flows)
  case h_12 =>
    cases decoded
    cases flows
  case h_15 =>
    split at decoded <;> cases decoded <;> exact skips flows
  case h_16 =>
    unfold decodeF at decoded
    split at decoded <;> cases decoded <;> exact straight (List.mem_singleton.mp flows)
  case h_17 => cases decoded
  all_goals
    cases decoded
    exact straight (List.mem_singleton.mp flows)

/-! ## The descent loses no word -/

/-- An even address from the entry point on. -/
def Aligned (q : Nat) : Prop := 512 ≤ q ∧ q % 2 = 0

def Marked (w : Walk) (p : Nat) : Prop := p % 2 = 0 ∧ w.map.reach p = true

/-- Words still to be looked at that will be walked. -/
def Pending (rom : List Byte) (w : Walk) (q : Nat) : Prop :=
  Walkable rom q ∧ (q ∈ w.stack ∨ ∃ anchor, w.block = some ⟨q, anchor⟩)

def Root (rom : List Byte) (q : Nat) : Prop := q = 512 ∧ Walkable rom q

/-- What holds between any two steps of the descent. -/
structure Sweep (rom : List Byte) (w : Walk) : Prop where
  stackAligned : ∀ q ∈ w.stack, Aligned q
  blockAligned : ∀ b, w.block = some b → Aligned b.pc
  walked : ∀ p, Marked w p → Walkable rom p
  whole : ∀ a, a % 2 = 0 → w.map.reach (a + 1) = w.map.reach a
  covers : Search.Covers (Root rom) (Edge rom) (Marked w) (Pending rom w)

theorem sweep_start {rom : List Byte} {m : Map} (clear : ∀ a, m.reach a = false) :
    Sweep rom (descendStart m) where
  stackAligned q here := by
    obtain rfl := List.mem_singleton.mp here
    exact ⟨Nat.le_refl _, rfl⟩
  blockAligned b here := nomatch here
  walked p marked := absurd marked.2 (by simp [descendStart, clear])
  whole a _ := by simp only [descendStart, clear]
  covers := by
    refine ⟨fun v isRoot => .inr ⟨isRoot.2, .inl ?_⟩, fun v w marked => ?_⟩
    · rw [isRoot.1]
      exact List.mem_singleton.mpr rfl
    · exact absurd marked.2 (by simp [descendStart, clear])

theorem descendWord_marked {rom : List Byte} {m : Map} {stack : List Nat} {b : Block} {p : Nat}
    (even : b.pc % 2 = 0) :
    Marked (descendWord rom m stack b) p ↔ p = b.pc ∨ Marked ⟨m, stack, some b⟩ p := by
  unfold Marked
  rw [descendWord_reach, markCode_reach]
  constructor
  · rintro ⟨even', here | second | old⟩
    · exact .inl here
    · omega
    · exact .inr ⟨even', old⟩
  · rintro (rfl | ⟨even', old⟩)
    · exact ⟨even, .inl rfl⟩
    · exact ⟨even', .inr (.inr old)⟩

theorem sweep_word {rom : List Byte} (fits : rom.length ≤ 3584) {m : Map} {stack : List Nat}
    {b : Block} (sweep : Sweep rom ⟨m, stack, some b⟩) (inside : b.pc + 1 < endOf rom.length)
    (valid : validOpcode (wordAt rom b.pc) = true) : Sweep rom (descendWord rom m stack b) := by
  have base : entrypoint.toNat = 512 := rfl
  obtain ⟨low, even⟩ := sweep.blockAligned b rfl
  have walkable : Walkable rom b.pc := by
    refine ⟨labelable_iff.mpr ⟨low, ?_, even⟩, valid⟩
    rw [endOf, base] at inside
    exact inside
  -- The word itself is all that is marked; what it leads to is pushed or walked next.
  have marks {p : Nat} := @descendWord_marked rom m stack b p even
  constructor
  · intro q here
    obtain same | ⟨a, pushed, fine⟩ := descendWord_stack rom m stack b
    · exact sweep.stackAligned q (same ▸ here)
    · rw [pushed] at here
      obtain rfl | older := List.mem_cons.mp here
      · obtain label | behind := fine
        · obtain ⟨low', -, even'⟩ := labelable_iff.mp label
          exact ⟨low', even'⟩
        · exact ⟨by omega, by omega⟩
      · exact sweep.stackAligned q older
  · intro b' here
    obtain ended | ⟨anchor, next⟩ := descendWord_block rom m stack b
    · rw [ended] at here
      cases here
    · rw [next] at here
      cases here
      exact ⟨by dsimp only; omega, by dsimp only; omega⟩
  · intro p marked
    obtain rfl | older := marks.mp marked
    · exact walkable
    · exact sweep.walked p older
  · intro a even'
    have old := sweep.whole a even'
    dsimp only at old
    rw [descendWord_reach, Bool.eq_iff_iff, markCode_reach, markCode_reach, old]
    constructor
    · rintro (here | here | here)
      · omega
      · exact .inl (by omega)
      · exact .inr (.inr here)
    · rintro (here | here | here)
      · exact .inr (.inl (by omega))
      · omega
      · exact .inr (.inr here)
  -- What was pending still is, but for the word; and its successors become so.
  · refine sweep.covers.visit (fun p older => marks.mpr (.inr older))
      (fun p marked => (marks.mp marked).symm) (marks.mpr (.inl rfl)) ?_ ?_
    · rintro p ⟨walk, waits | ⟨anchor, here⟩⟩
      · refine .inr ⟨walk, .inl ?_⟩
        obtain same | ⟨a, pushed, -⟩ := descendWord_stack rom m stack b
        · rw [same]
          exact waits
        · rw [pushed]
          exact List.mem_cons_of_mem a waits
      · cases here
        exact .inl rfl
    · rintro q ⟨⟨i, decoded, t, flows, rfl⟩, walk⟩
      refine .inr ⟨walk, ?_⟩
      exact descendWord_flows (by rw [endOf, base] at inside; omega) valid decoded flows walk.1

theorem pending_pop {rom : List Byte} {m : Map} {pc : Nat} {stack : List Nat} (q : Nat)
    (pending : Pending rom ⟨m, pc :: stack, none⟩ q) :
    Marked ⟨m, pc :: stack, none⟩ q ∨ Pending rom ⟨m, stack, some ⟨pc, none⟩⟩ q := by
  obtain ⟨walk, waits | ⟨anchor, here⟩⟩ := pending
  · refine .inr ⟨walk, ?_⟩
    obtain rfl | older := List.mem_cons.mp waits
    · exact .inr ⟨none, rfl⟩
    · exact .inl older
  · cases here

theorem pending_leave {rom : List Byte} {m : Map} {stack : List Nat} {b : Block}
    (even : b.pc % 2 = 0)
    (dead : b.pc + 1 < endOf rom.length → validOpcode (wordAt rom b.pc) = true →
      m.reach b.pc = true) (q : Nat) (pending : Pending rom ⟨m, stack, some b⟩ q) :
    Marked ⟨m, stack, some b⟩ q ∨ Pending rom ⟨m, stack, none⟩ q := by
  obtain ⟨walk, waits | ⟨anchor, here⟩⟩ := pending
  · exact .inr ⟨walk, .inl waits⟩
  · cases here
    refine .inl ⟨even, dead ?_ walk.2⟩
    exact (labelable_iff.mp walk.1).2.1

theorem descendStep_sweep {rom : List Byte} (fits : rom.length ≤ 3584) {w w' : Walk}
    (sweep : Sweep rom w) (stepped : descendStep rom w = some w') : Sweep rom w' := by
  cases descendStep_moves stepped with
  | @pop m pc stack =>
    refine ⟨fun q here => sweep.stackAligned q (List.mem_cons_of_mem pc here), ?_, sweep.walked,
      sweep.whole, ?_⟩
    · intro b here
      cases here
      exact sweep.stackAligned pc List.mem_cons_self
    · exact sweep.covers.drop pending_pop
  | word inside fresh valid => exact sweep_word fits sweep inside valid
  | leave dead =>
    refine ⟨sweep.stackAligned, (fun b' here => nomatch here), sweep.walked, sweep.whole, ?_⟩
    exact sweep.covers.drop (pending_leave (sweep.blockAligned _ rfl).2 dead)

theorem descendWalk_sweep {rom : List Byte} (fits : rom.length ≤ 3584) {m : Map}
    (clear : ∀ a, m.reach a = false) : Sweep rom (descendWalk rom m) :=
  (Run.finish_reaches _ _).invariant (fun _ _ => descendStep_sweep fits) (sweep_start clear)

/-- The words the descent has marked when it ends hold the entry point and every target
of theirs it would walk. -/
theorem descend_closed {rom : List Byte} (fits : rom.length ≤ 3584) {m : Map}
    (clear : ∀ a, m.reach a = false) :
    (Walkable rom 512 → (descend rom m).reach 512 = true) ∧
      ∀ p q, p % 2 = 0 → (descend rom m).reach p = true → Edge rom p q →
        (descend rom m).reach q = true := by
  obtain ⟨noStack, noBlock⟩ := descendWalk_done rom m
  obtain ⟨roots, edges⟩ := (descendWalk_sweep fits clear).covers.closed (by
    rintro v ⟨-, waits | ⟨anchor, here⟩⟩
    · rw [noStack] at waits
      cases waits
    · rw [noBlock] at here
      cases here)
  exact ⟨fun walk => (roots 512 ⟨rfl, walk⟩).2,
    fun p q even marked edge => (edges p q ⟨even, marked⟩ edge).2⟩

end ChipEight.Disas
