import ChipEight.Disas.Soundness
import ChipEight.Library.DepthFirst

/-! The self-modification flag against runs of the interpreter.

`note_write` looks at a store when the descent comes to it: it takes the nearest `LD I`
above for the value of I, and compares with the code found so far. A store that runs
with that I, and whose targets are not later in the graph of the ROM, is judged rightly.
-/

set_option autoImplicit false

namespace ChipEight.Disas

/-! ## The order of the walk -/

/-- The word a step of the descent marks. -/
def walkedWord (rom : List Byte) (w : Walk) : Option Nat :=
  match w.block with
  | none => none
  | some b =>
    if (b.pc + 1 < endOf rom.length && !w.map.reach b.pc) && validOpcode (wordAt rom b.pc) then
      some b.pc
    else none

/-- The words the next `n` steps of the descent mark. -/
def walks (rom : List Byte) : Nat → Walk → List Nat
  | 0, _ => []
  | n + 1, w => match descendStep rom w with
    | none => []
    | some w' => (walkedWord rom w).toList ++ walks rom n w'

/-- The words of a ROM in the order the descent marks them. -/
def walkOrder (rom : List Byte) : List Nat :=
  walks rom (descendFuel rom.length) (descendStart (analyze rom .empty))

/-- The operand of the last `LD I` among the first `k` words. -/
def ldiBelow (rom : List Byte) : Nat → Anchor
  | 0 => none
  | k + 1 =>
    let op := wordAt rom (entrypoint.toNat + 2 * k)
    if opClass op == 0xa then some (nnnOf op) else ldiBelow rom k

/-- The operand of the nearest `LD I` above an address. -/
def nearestLdi (rom : List Byte) (p : Nat) : Anchor := ldiBelow rom ((p - entrypoint.toNat) / 2)

theorem nearestLdi_next {rom : List Byte} {p : Nat} (aligned : Aligned p) :
    nearestLdi rom (p + 2) =
      if opClass (wordAt rom p) == 0xa then some (nnnOf (wordAt rom p)) else nearestLdi rom p := by
  obtain ⟨low, even⟩ := aligned
  have base : entrypoint.toNat = 512 := rfl
  have index : (p + 2 - entrypoint.toNat) / 2 = (p - entrypoint.toNat) / 2 + 1 := by omega
  have here : entrypoint.toNat + 2 * ((p - entrypoint.toNat) / 2) = p := by omega
  rw [nearestLdi, index, ldiBelow, here]
  rfl

theorem descendStep_cases {rom : List Byte} {w w' : Walk} (stepped : descendStep rom w = some w') :
    walkedWord rom w = none ∧ w'.map = w.map ∧ (∀ b, w'.block = some b → b.anchor = none) ∨
      ∃ b, w.block = some b ∧ walkedWord rom w = some b.pc ∧
        w' = descendWord rom w.map w.stack b := by
  obtain ⟨m, stack, block⟩ := w
  cases block with
  | none =>
    cases stack with
    | nil => cases stepped
    | cons pc rest =>
      cases stepped
      refine .inl ⟨rfl, rfl, fun b here => ?_⟩
      cases here
      rfl
  | some b =>
    simp only [descendStep] at stepped
    simp only [walkedWord]
    cases fresh : decide (b.pc + 1 < endOf rom.length) && !m.reach b.pc with
    | false =>
      rw [fresh, if_neg Bool.false_ne_true] at stepped
      cases stepped
      refine .inl ⟨?_, rfl, (fun b' here => nomatch here)⟩
      rw [Bool.false_and, if_neg Bool.false_ne_true]
    | true =>
      rw [fresh, if_pos rfl] at stepped
      rw [Bool.true_and]
      cases valid : validOpcode (wordAt rom b.pc) with
      | false =>
        rw [valid, if_neg Bool.false_ne_true] at stepped
        cases stepped
        refine .inl ⟨?_, rfl, (fun b' here => nomatch here)⟩
        rw [if_neg Bool.false_ne_true]
      | true =>
        rw [valid, if_pos rfl] at stepped
        cases stepped
        refine .inr ⟨b, rfl, ?_, rfl⟩
        rw [if_pos rfl]

/-! ## The anchor -/

theorem descendWord_anchor {rom : List Byte} {m : Map} {stack : List Nat} {b b' : Block}
    (next : (descendWord rom m stack b).block = some b') :
    b'.pc = b.pc + 2 ∧
      b'.anchor = if opClass (wordAt rom b.pc) == 0xa then some (nnnOf (wordAt rom b.pc))
        else b.anchor := by
  unfold descendWord at next
  dsimp only at next
  split at next
  case h_1 cls =>
    rw [cls]
    split at next
    · cases next
    · cases next
      exact ⟨rfl, rfl⟩
  case h_2 | h_9 => cases next
  case h_13 =>
    cases next
    refine ⟨rfl, ?_⟩
    rw [if_neg]
    intro isLdi
    have cls := eq_of_beq isLdi
    contradiction
  all_goals
    rename_i cls
    cases next
    rw [cls]
    exact ⟨rfl, rfl⟩

/-- A block's anchor is the nearest `LD I` above. -/
def Anchored (rom : List Byte) (w : Walk) : Prop :=
  ∀ b A, w.block = some b → b.anchor = some A → nearestLdi rom b.pc = some A

theorem descendStep_anchored {rom : List Byte} {w w' : Walk} (sweep : Sweep rom w)
    (anchored : Anchored rom w) (stepped : descendStep rom w = some w') : Anchored rom w' := by
  intro b' A next has
  obtain ⟨-, -, fresh⟩ | ⟨b, block, -, rfl⟩ := descendStep_cases stepped
  · rw [fresh b' next] at has
    cases has
  · obtain ⟨pc, anchor⟩ := descendWord_anchor next
    rw [pc, nearestLdi_next (sweep.blockAligned b block)]
    rw [anchor] at has
    split at has
    · rename_i isLdi
      rw [if_pos isLdi]
      exact has
    · rename_i notLdi
      rw [if_neg notLdi]
      exact anchored b A block has

/-! ## The flag -/

theorem markAnchored_smc (anchor : Anchor) (len size : Nat) (m : Map) :
    (markAnchored anchor len size m).smcPossible = m.smcPossible := by
  obtain ⟨k, only⟩ := markAnchored_only anchor len size m
  rw [only]

theorem mem_upTo {lo hi a : Nat} : a ∈ upTo lo hi ↔ lo ≤ a ∧ a < hi := by
  unfold upTo
  rw [List.mem_range'_1]
  omega

theorem noteWrite_clear {anchor : Anchor} {len : Nat} {m : Map}
    (clear : (noteWrite anchor len m).smcPossible = false) :
    m.smcPossible = false ∧ ∃ A, anchor = some A ∧
      ∀ a, A ≤ a → a < A + len → a < memorySize → m.reach a = false := by
  cases anchor with
  | none => cases clear
  | some A =>
    have each : m.smcPossible = false ∧
        ∀ a ∈ upTo A (min (A + len) memorySize), m.reach a = false := by
      unfold noteWrite at clear
      dsimp only at clear
      revert clear
      generalize upTo A (min (A + len) memorySize) = as
      induction as generalizing m with
      | nil => exact fun clear => ⟨clear, fun a none => nomatch none⟩
      | cons a as ih =>
        intro clear
        rw [List.foldl_cons] at clear
        split at clear
        · have impossible := (ih clear).1
          cases impossible
        · rename_i unmarked
          obtain ⟨before, rest⟩ := ih clear
          refine ⟨before, fun a' here => ?_⟩
          obtain rfl | later := List.mem_cons.mp here
          · exact Bool.eq_false_iff.mpr unmarked
          · exact rest a' later
    refine ⟨each.1, A, rfl, fun a above below small => ?_⟩
    exact each.2 a (mem_upTo.mpr ⟨above, Nat.lt_min.mpr ⟨below, small⟩⟩)

/-- The length of a store, as `descend` hands it to `note_write`. -/
def storeLength (op : Word) : Option Nat :=
  if opClass op == 0xf then
    match opLow8 op with
    | 0x33 => some 3
    | 0x55 => some ((opX op).toNat + 1)
    | _ => none
  else none

theorem memoryEffect_clear {op : Word} {anchor : Anchor} {size : Nat} {m : Map}
    (clear : (memoryEffect op anchor size m).smcPossible = false) : m.smcPossible = false := by
  unfold memoryEffect at clear
  dsimp only at clear
  split at clear
  · rw [markAnchored_smc] at clear
    exact (noteWrite_clear clear).1
  · rw [markAnchored_smc] at clear
    exact (noteWrite_clear clear).1
  · rw [markAnchored_smc] at clear
    exact clear
  · exact clear

theorem descendWord_clear {rom : List Byte} {m : Map} {stack : List Nat} {b : Block}
    (clear : (descendWord rom m stack b).map.smcPossible = false) : m.smcPossible = false := by
  unfold descendWord at clear
  dsimp only at clear
  split at clear
  case h_10 =>
    rw [markAnchored_smc] at clear
    exact clear
  case h_12 =>
    have before := memoryEffect_clear clear
    exact before
  all_goals exact clear

theorem memoryEffect_store {op : Word} {anchor : Anchor} {size len : Nat} {m : Map}
    (cls : opClass op = 0xf) (store : storeLength op = some len) :
    memoryEffect op anchor size m = markAnchored anchor len size (noteWrite anchor len m) := by
  unfold storeLength at store
  rw [cls] at store
  unfold memoryEffect
  split at store
  · split at store
    · rename_i low
      cases store
      rw [low]
      rfl
    · rename_i low
      cases store
      rw [low]
      rfl
    · cases store
  · cases store

theorem descendWord_store {rom : List Byte} {m : Map} {stack : List Nat} {b : Block} {len : Nat}
    (store : storeLength (wordAt rom b.pc) = some len)
    (clear : (descendWord rom m stack b).map.smcPossible = false) :
    ∃ A, b.anchor = some A ∧ ∀ a, A ≤ a → a < A + len → a < memorySize →
      (descendWord rom m stack b).map.reach a = false := by
  have cls : opClass (wordAt rom b.pc) = 0xf := by
    by_contra other
    have apart : (opClass (wordAt rom b.pc) == 0xf) = false := beq_false_of_ne other
    rw [storeLength, apart] at store
    cases store
  have effect : (descendWord rom m stack b).map =
      memoryEffect (wordAt rom b.pc) b.anchor rom.length (m.markCode b.pc) := by
    unfold descendWord
    dsimp only
    rw [cls]
    rfl
  rw [effect, memoryEffect_store cls store, markAnchored_smc] at clear
  rw [descendWord_reach]
  exact (noteWrite_clear clear).2

/-! ## What the order of the walk says about marks and stores -/

theorem descendStep_clear {rom : List Byte} {w w' : Walk} (stepped : descendStep rom w = some w')
    (clear : w'.map.smcPossible = false) : w.map.smcPossible = false := by
  obtain ⟨-, same, -⟩ | ⟨b, -, -, rfl⟩ := descendStep_cases stepped
  · rw [← same]
    exact clear
  · exact descendWord_clear clear

theorem finish_reach {rom : List Byte} {n : Nat} {w : Walk} {a : Nat}
    (marked : (Run.finish (descendStep rom) n w).map.reach a = true) :
    w.map.reach a = true ∨ ∃ q ∈ walks rom n w, a = q ∨ a = q + 1 := by
  induction n generalizing w with
  | zero => exact .inl marked
  | succ n ih =>
    unfold Run.finish at marked
    unfold walks
    cases stepped : descendStep rom w with
    | none =>
      rw [stepped] at marked
      exact .inl marked
    | some w' =>
      rw [stepped] at marked
      obtain before | ⟨q, later, inside⟩ := ih marked
      · obtain ⟨-, same, -⟩ | ⟨b, block, walked, rfl⟩ := descendStep_cases stepped
        · rw [← same]
          exact .inl before
        · rw [descendWord_reach, markCode_reach] at before
          obtain first | second | old := before
          · exact .inr ⟨b.pc, by simp [walked], .inl first⟩
          · exact .inr ⟨b.pc, by simp [walked], .inr second⟩
          · exact .inl old
      · exact .inr ⟨q, List.mem_append_right _ later, inside⟩

theorem finish_clear {rom : List Byte} {n : Nat} {w : Walk}
    (clear : (Run.finish (descendStep rom) n w).map.smcPossible = false) :
    w.map.smcPossible = false := by
  induction n generalizing w with
  | zero => exact clear
  | succ n ih =>
    unfold Run.finish at clear
    cases stepped : descendStep rom w with
    | none =>
      rw [stepped] at clear
      exact clear
    | some w' =>
      rw [stepped] at clear
      exact descendStep_clear stepped (ih clear)

/-- Where the flag stays clear, a walked store has an `LD I` above it, and its targets
from there are marked only by words walked after it. -/
theorem store_judged {rom : List Byte} (fits : rom.length ≤ 3584) {n : Nat} {w : Walk}
    (sweep : Sweep rom w) (anchored : Anchored rom w)
    (clear : (Run.finish (descendStep rom) n w).map.smcPossible = false) {p len : Nat}
    (walked : p ∈ walks rom n w) (store : storeLength (wordAt rom p) = some len) :
    ∃ A, nearestLdi rom p = some A ∧ ∀ a, A ≤ a → a < A + len → a < memorySize →
      (Run.finish (descendStep rom) n w).map.reach a = true →
        ∃ q, [p, q].Sublist (walks rom n w) ∧ (a = q ∨ a = q + 1) := by
  -- On the steps the descent has left, so that the words it still walks come behind this one.
  induction n generalizing w with
  | zero => cases walked
  | succ n ih =>
    unfold Run.finish at clear ⊢
    unfold walks at walked ⊢
    cases stepped : descendStep rom w with
    | none =>
      rw [stepped] at walked
      cases walked
    | some w' =>
      rw [stepped] at walked clear
      dsimp only at walked clear ⊢
      have later (known : p ∈ walks rom n w') := ih (descendStep_sweep fits sweep stepped)
        (descendStep_anchored sweep anchored stepped) clear known
      -- A step that walks no word leaves the claim to the rest of the walk.
      obtain ⟨none, -, -⟩ | ⟨b, block, here, rfl⟩ := descendStep_cases stepped
      · rw [none] at walked ⊢
        exact later walked
      · rw [here] at walked ⊢
        obtain same | known := List.mem_cons.mp walked
        · -- The store itself: what it may hit has not been walked yet.
          subst same
          obtain ⟨A, anchor, unmarked⟩ := descendWord_store store (finish_clear clear)
          refine ⟨A, anchored b A block anchor, fun a above below small marked => ?_⟩
          obtain before | ⟨q, after', inside⟩ := finish_reach marked
          · rw [unmarked a above below small] at before
            cases before
          · exact ⟨q, (List.singleton_sublist.mpr after').cons_cons b.pc, inside⟩
        · obtain ⟨A, near, rest⟩ := later known
          refine ⟨A, near, fun a above below small marked => ?_⟩
          obtain ⟨q, order, inside⟩ := rest a above below small marked
          exact ⟨q, order.cons b.pc, inside⟩

theorem walks_aligned {rom : List Byte} (fits : rom.length ≤ 3584) {n : Nat} {w : Walk}
    (sweep : Sweep rom w) {q : Nat} (walked : q ∈ walks rom n w) : Aligned q := by
  induction n generalizing w with
  | zero => cases walked
  | succ n ih =>
    unfold walks at walked
    cases stepped : descendStep rom w with
    | none =>
      rw [stepped] at walked
      cases walked
    | some w' =>
      rw [stepped] at walked
      obtain here | later := List.mem_append.mp walked
      · obtain ⟨none, -, -⟩ | ⟨b, block, same, -⟩ := descendStep_cases stepped
        · rw [none] at here
          cases here
        · rw [same] at here
          rw [List.mem_singleton.mp here]
          exact sweep.blockAligned b block
      · exact ih (descendStep_sweep fits sweep stepped) later

theorem mapOf_clear {rom : List Byte} {a : Nat} : (analyze rom .empty).reach a = false := by
  rw [analyze_reach]
  rfl

theorem mem_walkOrder {rom : List Byte} (fits : rom.length ≤ 3584) {p : Nat} (even : p % 2 = 0)
    (marked : (mapOf rom).reach p = true) : p ∈ walkOrder rom := by
  obtain before | ⟨q, walked, here | second⟩ := finish_reach marked
  · have clear : (analyze rom .empty).reach p = false := mapOf_clear
    rw [show (descendStart (analyze rom .empty)).map = analyze rom .empty from rfl, clear] at before
    cases before
  · rw [here]
    exact walked
  · have aligned := walks_aligned fits (sweep_start fun a => mapOf_clear) walked
    have odd := aligned.2
    omega

/-! ## The order in the graph of the ROM -/

/-- Where a word may pass control to, straight on before a branch. `JP V0` is taken with V0 at
zero, and words that are no code are left out. -/
def turns (rom : List Byte) (p : Nat) : List Nat :=
  let op := wordAt rom p
  let ways := match opClass op with
    | 0x0 => if op == 0x00ee#16 then [] else [p + 2]
    | 0x1 => [nnnOf op]
    | 0x2 => [p + 2, nnnOf op]
    | 0x3 => [p + 2, p + 4]
    | 0x4 => [p + 2, p + 4]
    | 0x5 => [p + 2, p + 4]
    | 0x9 => [p + 2, p + 4]
    | 0xb => [nnnOf op]
    | 0xe => [p + 2, p + 4]
    | _ => [p + 2]
  ways.filter fun q => decide (Walkable rom q)

/-- The words a walk still looks at. -/
def pending (rom : List Byte) (w : Walk) : List Nat :=
  ((w.block.map Block.pc).toList ++ w.stack).filter fun q => decide (Walkable rom q)

theorem pushIf_filter {rom : List Byte} {condition : Bool} {q : Nat} {stack : List Nat}
    (fine : Walkable rom q → condition = true) :
    (pushIf condition q stack).filter (fun q => decide (Walkable rom q)) =
      (q :: stack).filter fun q => decide (Walkable rom q) := by
  unfold pushIf
  split
  · rfl
  · rename_i refused
    rw [List.filter_cons_of_neg]
    exact fun walkable => refused (fine (of_decide_eq_true walkable))

theorem descendWord_pending (rom : List Byte) (m : Map) (stack : List Nat) (b : Block) :
    pending rom (descendWord rom m stack b) =
      turns rom b.pc ++ stack.filter fun q => decide (Walkable rom q) := by
  have named (q : Nat) (walkable : Walkable rom q) : labelable q rom.length = true := walkable.1
  -- The bounds tests of the source only drop words that are not walkable anyway.
  have behind (walkable : Walkable rom (b.pc + 4)) :
      decide (b.pc + 4 < endOf rom.length) = true := by
    obtain ⟨-, high, -⟩ := labelable_iff.mp walkable.1
    have base : entrypoint.toNat = 512 := rfl
    rw [decide_eq_true_eq, endOf, base]
    omega
  have straight : ((b.pc + 2) :: stack).filter (fun q => decide (Walkable rom q)) =
      [b.pc + 2].filter (fun q => decide (Walkable rom q)) ++
        stack.filter fun q => decide (Walkable rom q) := List.filter_append [b.pc + 2] stack
  have jump {condition : Bool} {q : Nat} (fine : Walkable rom q → condition = true) :
      (pushIf condition q stack).filter (fun q => decide (Walkable rom q)) =
        [q].filter (fun q => decide (Walkable rom q)) ++
          stack.filter fun q => decide (Walkable rom q) :=
    (pushIf_filter fine).trans (List.filter_append [q] stack)
  have branch {condition : Bool} {q : Nat} (fine : Walkable rom q → condition = true) :
      ((b.pc + 2) :: pushIf condition q stack).filter (fun q => decide (Walkable rom q)) =
        [b.pc + 2, q].filter (fun q => decide (Walkable rom q)) ++
          stack.filter fun q => decide (Walkable rom q) := by
    rw [← List.singleton_append, List.filter_append, jump fine, ← List.append_assoc,
      ← List.filter_append]
    rfl
  unfold pending turns descendWord
  dsimp only
  -- One case for each class of opcode, and how many ways it goes on.
  split <;> rename_i cls <;> try rw [cls]
  case h_1 =>
    dsimp only
    split
    · rfl
    · exact straight
  case h_2 | h_9 => exact jump (named _)
  case h_3 => exact branch (named _)
  case h_4 | h_5 | h_6 | h_7 | h_11 => exact branch behind
  case h_8 | h_10 | h_12 => exact straight
  case h_13 =>
    refine straight.trans (congrArg (fun ways => List.filter _ ways ++ _) ?_)
    split <;> first | contradiction | rfl

/-- The descent is a depth-first search of the graph, and what it has not marked when it walks a
word comes behind that. -/
theorem descendStep_searching {rom : List Byte} {w w' : Walk} (sweep : Sweep rom w)
    (searching : DepthFirst.Searching (turns rom) entrypoint.toNat {p | Marked w p} (pending rom w))
    (stepped : descendStep rom w = some w') :
    DepthFirst.Searching (turns rom) entrypoint.toNat {p | Marked w' p} (pending rom w') ∧
      ∀ p, walkedWord rom w = some p → ∀ q, ¬ Marked w' q →
        DepthFirst.Before (turns rom) entrypoint.toNat p q := by
  cases descendStep_moves stepped with
  | pop => exact ⟨searching, fun p walked => nomatch walked⟩
  -- A block ends at a word that is marked, or at one that cannot be walked.
  | @leave m stack b dead =>
    constructor
    · by_cases walkable : Walkable rom b.pc
      · have here : pending rom ⟨m, stack, some b⟩ = b.pc :: pending rom ⟨m, stack, none⟩ :=
          List.filter_cons_of_pos (decide_eq_true walkable)
        rw [here] at searching
        refine searching.skip ⟨(sweep.blockAligned b rfl).2, dead ?_ walkable.2⟩
        exact (labelable_iff.mp walkable.1).2.1
      · have here : pending rom ⟨m, stack, some b⟩ = pending rom ⟨m, stack, none⟩ :=
          List.filter_cons_of_neg fun yes => walkable (of_decide_eq_true yes)
        rw [← here]
        exact searching
    · intro p walked
      unfold walkedWord at walked
      dsimp only at walked
      split at walked
      · rename_i fresh
        simp only [Bool.and_eq_true, decide_eq_true_eq, Bool.not_eq_true'] at fresh
        have marked := dead fresh.1.1 fresh.2
        rw [fresh.1.2] at marked
        cases marked
      · cases walked
  | @word m stack b inside fresh valid =>
    obtain ⟨low, even⟩ := sweep.blockAligned b rfl
    -- The word is marked and its ways are handed on: a visit of the search.
    have walkable : Walkable rom b.pc := ⟨labelable_iff.mpr ⟨low, inside, even⟩, valid⟩
    have here : pending rom ⟨m, stack, some b⟩ = b.pc :: stack.filter fun q => decide (Walkable rom q) :=
      List.filter_cons_of_pos (decide_eq_true walkable)
    have marked : {p | Marked (descendWord rom m stack b) p} =
        insert b.pc {p | Marked ⟨m, stack, some b⟩ p} :=
      Set.ext fun p => descendWord_marked even
    rw [here] at searching
    obtain ⟨visits, before⟩ := searching.visit fun old => by
      have clear := old.2
      rw [fresh] at clear
      cases clear
    rw [marked, descendWord_pending]
    -- What is not marked now was not marked before, so it comes behind the word.
    refine ⟨visits, fun p walked q new => ?_⟩
    unfold walkedWord at walked
    dsimp only at walked
    split at walked
    · cases walked
      exact before q fun old => new (show q ∈ {p | Marked _ p} by rw [marked]; exact old)
    · cases walked

theorem searching_start (rom : List Byte) :
    DepthFirst.Searching (turns rom) entrypoint.toNat
      {p | Marked (descendStart (analyze rom .empty)) p}
      (pending rom (descendStart (analyze rom .empty))) := by
  refine .idle (Set.eq_empty_of_forall_notMem fun p marked => ?_) ?_
  · have clear : (analyze rom .empty).reach p = false := mapOf_clear
    have set : (analyze rom .empty).reach p = true := marked.2
    rw [clear] at set
    cases set
  · by_cases walkable : Walkable rom entrypoint.toNat
    · exact .inr (List.filter_cons_of_pos (decide_eq_true walkable))
    · exact .inl (List.filter_cons_of_neg fun yes => walkable (of_decide_eq_true yes))

theorem route_walkable {rom : List Byte} {path : List Nat} {q : Nat}
    (route : DepthFirst.Route (turns rom) entrypoint.toNat path q) :
    q = entrypoint.toNat ∨ Walkable rom q := by
  obtain ⟨start, edges, -, last⟩ := route
  obtain ⟨front, rfl⟩ := List.getLast?_eq_some_iff.mp last
  obtain rfl | ⟨front, p, rfl⟩ := List.eq_nil_or_concat' front
  · cases start
    exact .inl rfl
  · rw [List.append_assoc] at edges
    have edge := (List.isChain_cons_cons.mp (List.isChain_append.mp edges).2.1).1
    exact .inr (of_decide_eq_true (List.mem_filter.mp edge).2)

theorem walkedWord_new {rom : List Byte} {w : Walk} {q : Nat} (walked : walkedWord rom w = some q) :
    w.map.reach q = false := by
  unfold walkedWord at walked
  split at walked
  · cases walked
  · split at walked
    · rename_i fresh
      cases walked
      simp only [Bool.and_eq_true, Bool.not_eq_true'] at fresh
      exact fresh.1.2
    · cases walked

theorem walks_new {rom : List Byte} {n : Nat} {w : Walk} {q : Nat} (walked : q ∈ walks rom n w) :
    ¬ Marked w q := by
  induction n generalizing w with
  | zero => cases walked
  | succ n ih =>
    unfold walks at walked
    cases stepped : descendStep rom w with
    | none =>
      rw [stepped] at walked
      cases walked
    | some w' =>
      rw [stepped] at walked
      obtain here | later := List.mem_append.mp walked
      · have fresh := walkedWord_new (Option.mem_toList.mp here)
        rintro ⟨-, marked⟩
        rw [fresh] at marked
        cases marked
      · rintro ⟨even, marked⟩
        refine ih later ⟨even, ?_⟩
        obtain ⟨-, same, -⟩ | ⟨b, -, -, rfl⟩ := descendStep_cases stepped
        · rw [same]
          exact marked
        · rw [descendWord_reach, markCode_reach]
          exact .inr (.inr marked)

theorem walks_before {rom : List Byte} (fits : rom.length ≤ 3584) {n : Nat} {w : Walk}
    (sweep : Sweep rom w)
    (searching : DepthFirst.Searching (turns rom) entrypoint.toNat {p | Marked w p} (pending rom w))
    {p q : Nat} (order : [p, q].Sublist (walks rom n w)) :
    DepthFirst.Before (turns rom) entrypoint.toNat p q := by
  induction n generalizing w with
  | zero => cases order
  | succ n ih =>
    unfold walks at order
    cases stepped : descendStep rom w with
    | none =>
      rw [stepped] at order
      cases order
    | some w' =>
      rw [stepped] at order
      dsimp only at order
      obtain ⟨onwards, before⟩ := descendStep_searching sweep searching stepped
      have later := ih (descendStep_sweep fits sweep stepped) onwards
      cases walked : walkedWord rom w with
      | none =>
        rw [walked] at order
        exact later order
      | some b =>
        rw [walked] at order
        cases order with
        | cons _ order => exact later order
        | cons_cons _ order =>
          exact before p walked q (walks_new (List.singleton_sublist.mp order))

theorem walks_route {rom : List Byte} (fits : rom.length ≤ 3584) {n : Nat} {w : Walk}
    (sweep : Sweep rom w)
    (searching : DepthFirst.Searching (turns rom) entrypoint.toNat {p | Marked w p} (pending rom w))
    {q : Nat} (walked : q ∈ walks rom n w) :
    ∃ path, DepthFirst.Route (turns rom) entrypoint.toNat path q := by
  induction n generalizing w with
  | zero => cases walked
  | succ n ih =>
    unfold walks at walked
    cases stepped : descendStep rom w with
    | none =>
      rw [stepped] at walked
      cases walked
    | some w' =>
      rw [stepped] at walked
      obtain ⟨onwards, -⟩ := descendStep_searching sweep searching stepped
      obtain here | later := List.mem_append.mp walked
      · obtain ⟨none, -, -⟩ | ⟨b, block, same, rfl⟩ := descendStep_cases stepped
        · rw [none] at here
          cases here
        · rw [same] at here
          rw [List.mem_singleton.mp here]
          refine onwards.reached ⟨(sweep.blockAligned b block).2, ?_⟩
          rw [descendWord_reach, markCode_reach]
          exact .inl rfl
      · exact ih (descendStep_sweep fits sweep stepped) onwards later

/-! ## Stores of a run -/

theorem decode_store {op : Word} {i : Insn} (decoded : decode op = some i) {addr : Word} {a : Addr}
    (stores : a ∈ i.written addr) :
    ∃ len, storeLength op = some len ∧ i.written addr = span addr len := by
  unfold decode at decoded
  split at decoded
  · cases decoded
    cases stores
  split at decoded
  · cases decoded
    cases stores
  split at decoded
  case h_9 =>
    obtain ⟨o, -, rfl⟩ := Option.map_eq_some_iff.mp decoded
    cases stores
  case h_15 =>
    split at decoded <;> cases decoded <;> cases stores
  case h_16 cls =>
    unfold storeLength
    rw [cls]
    unfold decodeF at decoded
    split at decoded
    case h_7 low =>
      cases decoded
      rw [low]
      exact ⟨_, rfl, rfl⟩
    case h_8 low =>
      cases decoded
      rw [low]
      exact ⟨_, rfl, rfl⟩
    all_goals cases decoded <;> cases stores
  all_goals cases decoded <;> cases stores

theorem reach_bounds {rom : List Byte} (fits : rom.length ≤ 3584) {a : Nat}
    (marked : (mapOf rom).reach a = true) : InRom rom a := by
  have sweep : Sweep rom (descendWalk rom (analyze rom .empty)) :=
    descendWalk_sweep fits fun a => mapOf_clear
  have base : entrypoint.toNat = 512 := rfl
  obtain even | odd : a % 2 = 0 ∨ a % 2 = 1 := by omega
  · obtain ⟨low, high, -⟩ := labelable_iff.mp (sweep.walked a ⟨even, marked⟩).1
    exact ⟨low, by omega⟩
  · obtain ⟨p, rfl⟩ : ∃ p, a = p + 1 := ⟨a - 1, by omega⟩
    have first : (mapOf rom).reach p = true := by
      rw [← marked]
      exact (sweep.whole p (by omega)).symm
    obtain ⟨low, high, -⟩ := labelable_iff.mp (sweep.walked p ⟨by omega, first⟩).1
    exact ⟨by omega, by omega⟩

/-- The bytes of marked words are still those of the ROM. -/
def CodeIntact (rom : List Byte) (memory : Memory) : Prop :=
  ∀ a : Addr, (mapOf rom).reach a.toNat = true → memory a = loadRom rom a

theorem CodeIntact.opcode {rom : List Byte} {memory : Memory} (intact : CodeIntact rom memory)
    (fits : rom.length ≤ 3584) {pc : Word} (even : pc.toNat % 2 = 0)
    (marked : (mapOf rom).reach pc.toNat = true) :
    opcodeAt memory pc = wordAt rom pc.toNat := by
  have sweep : Sweep rom (descendWalk rom (analyze rom .empty)) :=
    descendWalk_sweep fits fun a => mapOf_clear
  obtain ⟨low, high, -⟩ := labelable_iff.mp (sweep.walked _ ⟨even, marked⟩).1
  have second : (mapOf rom).reach (pc.toNat + 1) = true := by
    rw [← marked]
    exact sweep.whole _ even
  have first := reach_bounds fits marked
  have next := next_toNat fits first
  have there : InRom rom (pc + 1).toNat := next ▸ reach_bounds fits second
  rw [wordAt_eq (intact_boot rom) fits ⟨low, high⟩]
  unfold opcodeAt
  rw [intact (mask pc) ((mask_toNat fits first).symm ▸ marked),
    intact (mask (pc + 1)) (by rw [mask_toNat fits there, next]; exact second)]

/-- What the analysis assumes of a store, if the word about to run is one: I is the
operand of the nearest `LD I` above it, and no word is hit to which all routes are behind one to
the store. -/
structure Judged (rom : List Byte) (vm : VM) : Prop where
  anchor : ∀ A, nearestLdi rom vm.programCounter.toNat = some A → vm.addr.toNat = A
  order : ∀ i, decode (opcodeAt vm.memory vm.programCounter) = some i →
    ∀ q, (∃ path, DepthFirst.Route (turns rom) entrypoint.toNat path q) →
      DepthFirst.Before (turns rom) entrypoint.toNat vm.programCounter.toNat q →
        ∀ a ∈ i.written vm.addr, a.toNat ≠ q ∧ a.toNat ≠ q + 1

theorem span_bytes {addr : Word} {len : Nat} (small : addr.toNat < memorySize) (short : len ≤ 16)
    {a : Addr} (inside : a ∈ span addr len) :
    addr.toNat ≤ a.toNat ∧ a.toNat < addr.toNat + len ∨ a.toNat < 16 := by
  obtain ⟨i, below, rfl⟩ := mem_span.mp inside
  have size : memorySize = 4096 := rfl
  have wrapped : (mask (addr + BitVec.ofNat 16 i)).toNat = (addr.toNat + i) % 4096 := by
    rw [mask, BitVec.toNat_setWidth, BitVec.toNat_add, BitVec.toNat_ofNat]
    omega
  rw [wrapped]
  omega

theorem storeLength_le {op : Word} {len : Nat} (store : storeLength op = some len) : len ≤ 16 := by
  have x := (opX op).isLt
  unfold storeLength at store
  split at store
  · split at store <;> cases store <;> omega
  · cases store

theorem nnnOf_lt (op : Word) : nnnOf op < 4096 := (immediate12 op).isLt

theorem nearestLdi_lt {rom : List Byte} {p A : Nat} (near : nearestLdi rom p = some A) :
    A < memorySize := by
  unfold nearestLdi at near
  revert near
  generalize (p - entrypoint.toNat) / 2 = k
  induction k with
  | zero => exact fun near => nomatch near
  | succ k ih =>
    intro near
    unfold ldiBelow at near
    dsimp only at near
    split at near
    · cases near
      exact nnnOf_lt _
    · exact ih near

theorem judged_unmarked {rom : List Byte} (fits : rom.length ≤ 3584)
    (clear : (mapOf rom).smcPossible = false) {vm : VM} (intact : CodeIntact rom vm.memory)
    (even : vm.programCounter.toNat % 2 = 0)
    (marked : (mapOf rom).reach vm.programCounter.toNat = true) (judged : Judged rom vm) {i : Insn}
    (decoded : decode (opcodeAt vm.memory vm.programCounter) = some i) {a : Addr}
    (stores : a ∈ i.written vm.addr) : (mapOf rom).reach a.toNat = false := by
  obtain ⟨len, store, written⟩ := decode_store decoded stores
  rw [intact.opcode fits even marked] at store
  obtain ⟨A, near, later⟩ := store_judged fits (sweep_start fun a => mapOf_clear)
    (fun b A here => by cases here) clear (mem_walkOrder fits even marked) store
  have here := judged.anchor A near
  have inside := stores
  rw [written] at inside
  apply Bool.eq_false_iff.mpr
  intro hit
  obtain ⟨low, high⟩ | wrapped := span_bytes (here ▸ nearestLdi_lt near) (storeLength_le store) inside
  · obtain ⟨q, order, inside⟩ := later a.toNat (here ▸ low) (here ▸ high) a.isLt hit
    have sweep : Sweep rom (descendStart (analyze rom .empty)) := sweep_start fun a => mapOf_clear
    have route := walks_route fits sweep (searching_start rom)
      (order.subset (List.mem_cons_of_mem _ (List.mem_singleton.mpr rfl)))
    have before := walks_before fits sweep (searching_start rom) order
    obtain ⟨first, second⟩ := judged.order i decoded q route before a stores
    exact inside.elim first second
  · have rom' := (reach_bounds fits hit).1
    have base : entrypoint.toNat = 512 := rfl
    omega

section
variable {E : Type} {P : Platform E} {rom : List Byte}

/-- With the flag clear, a run over marked words whose stores the analysis judged writes
no marked byte. -/
theorem stores_unmarked (fits : rom.length ≤ 3584) (clear : (mapOf rom).smcPossible = false)
    {env : E} {n : Nat} {s : State E} (run : Run.after (mainStep P) n ⟨VM.boot rom, env⟩ = some s)
    (marked : ∀ k ≤ n, ∀ u, Run.after (mainStep P) k ⟨VM.boot rom, env⟩ = some u →
      (mapOf rom).reach u.vm.programCounter.toNat = true)
    (even : ∀ k ≤ n, ∀ u, Run.after (mainStep P) k ⟨VM.boot rom, env⟩ = some u →
      u.vm.programCounter.toNat % 2 = 0)
    (judged : ∀ k ≤ n, ∀ u, Run.after (mainStep P) k ⟨VM.boot rom, env⟩ = some u →
      ∀ len, storeLength (opcodeAt u.vm.memory u.vm.programCounter) = some len →
        Judged rom u.vm)
    {i : Insn} (decoded : decode (opcodeAt s.vm.memory s.vm.programCounter) = some i) {a : Addr}
    (stores : a ∈ i.written s.vm.addr) : (mapOf rom).reach a.toNat = false := by
  -- As long as the code is as it was, the condition answers for the next store.
  have unmarked (k : Nat) (small : k ≤ n) (u : State E)
      (reached : Run.after (mainStep P) k ⟨VM.boot rom, env⟩ = some u)
      (intact : CodeIntact rom u.vm.memory) {i : Insn}
      (decoded : decode (opcodeAt u.vm.memory u.vm.programCounter) = some i) {a : Addr}
      (stores : a ∈ i.written u.vm.addr) : (mapOf rom).reach a.toNat = false := by
    obtain ⟨len, store, -⟩ := decode_store decoded stores
    exact judged_unmarked fits clear intact (even k small u reached) (marked k small u reached)
      (judged k small u reached len store) decoded stores
  -- So by induction on the run the code stays as it was.
  have intact (k : Nat) : ∀ u, k ≤ n → Run.after (mainStep P) k ⟨VM.boot rom, env⟩ = some u →
      CodeIntact rom u.vm.memory := by
    induction k with
    | zero =>
      intro u _ reached
      cases reached
      exact fun _ _ => rfl
    | succ k ih =>
      intro u small reached
      obtain ⟨v, earlier, last⟩ := Run.after_succ.mp reached
      have before := ih v (Nat.le_of_succ_le small) earlier
      obtain ⟨-, block⟩ := (mainStep_eq_some P).mp last
      obtain ⟨j, decodedV, executed⟩ := blockStep_decodes P block
      intro b code
      rw [← before b code]
      -- The step before has not written a code byte.
      have away : b ∉ j.written v.vm.addr := by
        intro written
        have miss := unmarked k (Nat.le_of_succ_le small) v earlier before decodedV written
        rw [code] at miss
        cases miss
      have kept := exec_memory P (opcodeAt v.vm.memory v.vm.programCounter) j
        { v with env := (P.allKeysDown v.env).2 } away
      rw [executed] at kept
      exact kept
  exact unmarked n (Nat.le_refl n) s run (intact n s (Nat.le_refl n) run) decoded stores

end

/-- `LD I, 0x300; LD B, V0; JP 0x204`. -/
def storesAway : List Byte := [0xa3, 0x00, 0xf0, 0x33, 0x12, 0x04]

/-- The store of the second instruction misses the code. -/
theorem stores_unmarked_storesAway :
    (mapOf storesAway).reach 0x302 = false := by
  have run : Run.after (mainStep (tapePlatform quietTape fun _ => 0#32)) 1
      ⟨VM.boot storesAway, .start⟩ = some _ := rfl
  refine stores_unmarked (by decide) (by decide +kernel) run ?_ ?_ ?_
    (show decode (opcodeAt (loadRom storesAway) 0x202#16) = some (.bcd 0#4) from rfl)
    (show (0x302#12 : Addr) ∈ span 0x300#16 3 by decide)
  · intro k small u reached
    interval_cases k <;> cases reached <;> decide +kernel
  · intro k small u reached
    interval_cases k <;> cases reached <;> decide
  · intro k small u reached len store
    interval_cases k
    · cases reached
      cases store
    · cases reached
      refine ⟨?_, ?_⟩
      · intro A near
        cases near
        rfl
      · intro i decoded q route _ a stores
        cases decoded
        have small : q < 0x206 := by
          obtain rfl | walkable := route.elim fun _ => route_walkable
          · decide
          · have high := (labelable_iff.mp walkable.1).2.1
            have size : storesAway.length = 6 := rfl
            omega
        have away : ∀ a ∈ span 0x300#16 3, 0x300 ≤ a.toNat := by decide
        have far := away a stores
        omega

/-- `LD I, 0x204; LD [I], V0; JP 0x204`. -/
def storesAhead : List Byte := [0xa2, 0x04, 0xf0, 0x55, 0x12, 0x04]

/-- The store of the second instruction hits the third, and nothing is flagged. -/
theorem store_unflagged :
    (mapOf storesAhead).smcPossible = false ∧
    ∃ s, Run.after (mainStep (tapePlatform quietTape fun _ => 0#32)) 1
        ⟨VM.boot storesAhead, .start⟩ = some s ∧
      (mapOf storesAhead).reach 0x200 = true ∧
      (mapOf storesAhead).reach s.vm.programCounter.toNat = true ∧
      decode (opcodeAt s.vm.memory s.vm.programCounter) = some (.save 0#4) ∧
      (0x204#12 : Addr) ∈ (Insn.save 0#4).written s.vm.addr ∧
      (mapOf storesAhead).reach 0x204 = true :=
  ⟨by decide +kernel, _, rfl, by decide +kernel, by decide +kernel, rfl, by decide,
    by decide +kernel⟩

end ChipEight.Disas
