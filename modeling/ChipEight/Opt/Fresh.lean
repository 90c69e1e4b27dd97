import ChipEight.Opt.Hazards
import ChipEight.Opt.Symbolic

/-! What `analyze` finds out about a symbolized program.

Where the names `symbolize_in_rom_addresses` makes are new, and what stands in the place of a
number is read as the address, the result is analyzed as the source was: the same contexts, with
the same states, and the same accesses and hazards.
-/

set_option autoImplicit false

namespace ChipEight.Opt

open Asm (Text Token Mnemonic startsWithV wordI wordF wordB wordMemory)
open Disas (hex)

/-! ## Labels of a source -/

/-- No label is defined twice, and the program ends in memory. -/
structure Bounded (statements : List Statement) (labels : Labels) : Prop where
  distinct : (labels.map Prod.fst).Nodup
  room : ∀ s ∈ statements, s.pc + s.size ≤ limit

theorem lookup_isSome {labels : Labels} {name : Token} (here : name ∈ labels.map Prod.fst) :
    (labels.lookup name).isSome := by
  obtain ⟨r, inside, rfl⟩ := List.mem_map.mp here
  rw [Option.isSome_iff_ne_none, Ne, List.lookup_eq_none_iff]
  exact fun none => by simpa using none r inside

theorem parseLine_bounded {U : Unicode} {st st' : Parsed} {numbered : Nat × Text}
    (bounded : Bounded st.statements st.labels) (parsed : parseLine U st numbered = .ok st') :
    Bounded st'.statements st'.labels := by
  unfold parseLine at parsed
  dsimp only at parsed
  split at parsed
  · cases parsed
    exact bounded
  · obtain ⟨labels, added, parsed⟩ := Asm.bind_ok.mp parsed
    obtain ⟨size, -, parsed⟩ := Asm.bind_ok.mp parsed
    split at parsed
    · cases parsed
    · rename_i room
      cases parsed
      constructor
      · unfold addLabel at added
        split at added
        · cases added
          exact bounded.distinct
        split at added
        · cases added
        split at added
        · cases added
        · rename_i label _ _ known
          cases added
          rw [List.map_append]
          refine List.nodup_append.mpr ⟨bounded.distinct, List.nodup_singleton _, ?_⟩
          rintro name old _ new rfl
          rw [List.mem_singleton.mp new] at old
          exact known (lookup_isSome old)
      · intro s here
        obtain old | new := List.mem_append.mp here
        · exact bounded.room s old
        · rw [List.mem_singleton.mp new]
          exact Nat.le_of_not_lt room

section
variable {U : Unicode} {text : Text} {statements : List Statement} {labels : Labels}

theorem parseSource_bounded (parsed : parseSource U text = .ok (statements, labels)) :
    Bounded statements labels :=
  parseSource_keeps ⟨.nil, nofun⟩ (fun _ _ _ => parseLine_bounded) parsed

theorem lookup_only {name : Token} {v : Nat} {l : Labels} (here : (name, v) ∈ l)
    (only : ∀ r ∈ l, r.1 = name → r.2 = v) : l.lookup name = some v := by
  induction l with
  | nil => cases here
  | cons r rest ih =>
    rw [List.lookup_cons]
    by_cases same : r.1 = name
    · rw [beq_iff_eq.mpr same.symm]
      exact congrArg some (only r List.mem_cons_self same)
    · rw [beq_eq_false_iff_ne.mpr fun equal => same equal.symm]
      refine ih ((List.mem_cons.mp here).resolve_left ?_) fun r' later =>
        only r' (List.mem_cons_of_mem _ later)
      rintro rfl
      exact same rfl

theorem lookup_mem {name : Token} {v : Nat} {l : Labels} (distinct : (l.map Prod.fst).Nodup)
    (here : (name, v) ∈ l) : l.lookup name = some v :=
  lookup_only here fun _ inside same =>
    congrArg Prod.snd (List.inj_on_of_nodup_map distinct inside here same)

theorem payload_limit (bounded : Bounded statements labels) : payloadEnd statements ≤ limit := by
  unfold payloadEnd
  refine List.foldlRecOn (motive := fun m => m ≤ limit) statements _ (by decide)
    fun m small s here => ?_
  exact Nat.max_le.mpr ⟨small, bounded.room s here⟩

/-! ## New names -/

/-- The names that are made are no labels and no words of the source, and the labels that stand
in the place of numbers are read as labels. -/
structure Fresh (U : Unicode) (statements : List Statement) (labels : Labels) : Prop where
  label : ∀ s ∈ statements, needsLabel U statements labels s = true →
    ∀ r ∈ statements, r.label ≠ some (addressName s.pc)
  word : ∀ s ∈ statements, needsLabel U statements labels s = true →
    ∀ r ∈ statements, ∀ word ∈ r.args, upper U word ≠ addressName s.pc
  operand : ∀ s ∈ statements, ∀ r ∈ statements, namedByNumber U statements labels r.pc = true →
    numericLast U s = true → target U labels s = some (r.pc : Int) →
    ∀ name, labelOf labels r.pc = some name → upper U name = name ∧ parseNumber U name = none ∧
      (isReference s = true ∨ startsWithV name = false ∧ name ≠ wordMemory)

/-- The name in the place of an address. -/
def nameOf (labels : Labels) (v : Nat) : Token := (labelOf labels v).getD (addressName v)

/-- The facts about a source, with the addresses that get labels. -/
structure Named (U : Unicode) (statements : List Statement) (labels : Labels) (made : List Nat) :
    Prop where
  distinct : (labels.map Prod.fst).Nodup
  some : ∀ r ∈ labels, r.1 ≠ []
  small : ∀ v ∈ made, v < limit
  statement : ∀ v ∈ made, ∃ q ∈ statements, q.pc = v
  new : ∀ v ∈ made, labelOf labels v = none → ∀ r ∈ labels, r.1 ≠ addressName v
  word : ∀ v ∈ made, labelOf labels v = none →
    ∀ r ∈ statements, ∀ word ∈ r.args, upper U word ≠ addressName v
  operand : ∀ s ∈ statements, ∀ v, Refers U made labels s v → ∀ name, labelOf labels v = Option.some name →
    upper U name = name ∧ parseNumber U name = none ∧
      (isReference s = true ∨ startsWithV name = false ∧ name ≠ wordMemory)

theorem Fresh.named (parsed : parseSource U text = .ok (statements, labels))
    (fresh : Fresh U statements labels) :
    Named U statements labels (generated U statements labels) := by
  obtain ⟨stop, follows⟩ := parseSource_follows parsed
  have labelled := parseSource_labelled parsed
  have bounded := parseSource_bounded parsed
  -- A made name is asked for by some statement.
  have needs : ∀ v ∈ generated U statements labels, labelOf labels v = none →
      ∃ s ∈ statements, s.pc = v ∧ needsLabel U statements labels s = true := by
    intro v here none
    obtain ⟨-, s, inside, rfl⟩ := (mem_generated follows).mp here
    refine ⟨s, inside, rfl, ?_⟩
    rw [← needsLabel_eq labelled (parseSource_listed parsed) follows inside,
      List.contains_iff_mem.mpr here, none]
    rfl
  refine ⟨bounded.distinct, fun r here => (labelled.labels r here).1, ?_,
    fun v here => ((mem_generated follows).mp here).2, ?_, ?_, ?_⟩
  · intro v here
    have inRom := ((mem_generated follows).mp here).1
    simp only [namedByNumber, Bool.and_eq_true, decide_eq_true_eq] at inRom
    exact Nat.lt_of_lt_of_le inRom.1 (payload_limit bounded)
  · intro v here none r inside same
    obtain ⟨s, isStatement, rfl, needsIt⟩ := needs v here none
    obtain ⟨-, q, there, label, -⟩ := labelled.labels r inside
    exact fresh.label s isStatement needsIt q there (same ▸ label)
  · intro v here none
    obtain ⟨s, isStatement, rfl, needsIt⟩ := needs v here none
    exact fresh.word s isStatement needsIt
  · intro s here v refers name label
    obtain ⟨named, r, inside, rfl⟩ := (mem_generated follows).mp refers.made
    exact fresh.operand s here r inside named refers.numeric refers.target name label

end

section
variable {U : Unicode} {statements : List Statement} {labels : Labels} {made : List Nat}

/-- The labels of the loop: those of the source, and behind them made ones. -/
structure Grown (labels : Labels) (made : List Nat) (newLabels : Labels) : Prop where
  front : ∃ extra, newLabels = labels ++ extra ∧
    ∀ r ∈ extra, r.1 = addressName r.2 ∧ r.2 ∈ made ∧ labelOf labels r.2 = none

theorem Grown.refl : Grown labels made labels := ⟨[], (List.append_nil _).symm, nofun⟩

theorem Named.present (names : Named U statements labels made) (v : Nat) :
    present (labelOf labels v) = labelOf labels v := by
  cases found : labelOf labels v with
  | none => rfl
  | some name => exact present_some (names.some _ (labelOf_some found))

theorem Named.made_entry (names : Named U statements labels made) {newLabels : Labels}
    (grown : Grown labels made newLabels) {v : Nat} (here : v ∈ made)
    (none : labelOf labels v = none) {r : Token × Nat} (inside : r ∈ newLabels)
    (same : r.1 = addressName v) : r.2 = v := by
  obtain ⟨extra, rfl, shape⟩ := grown.front
  obtain old | new := List.mem_append.mp inside
  · exact absurd same (names.new v here none r old)
  · obtain ⟨name, isMade, -⟩ := shape r new
    exact addressName_inj (names.small _ isMade) (names.small v here) (name.symm.trans same)

theorem assign_same {l : Labels} {name : Token} {v : Nat} (known : name ∈ l.map Prod.fst)
    (only : ∀ r ∈ l, r.1 = name → r.2 = v) : assign l name v = l := by
  unfold assign
  rw [if_pos (lookup_isSome known)]
  refine (List.map_congr_left fun r here => ?_).trans (List.map_id l)
  split
  · rename_i same
    have first := beq_iff_eq.mp same
    exact Prod.ext first.symm (only r here first).symm
  · rfl

theorem Grown.assign (names : Named U statements labels made) {newLabels : Labels}
    (grown : Grown labels made newLabels) {v : Nat} (here : v ∈ made) :
    Grown labels made (Opt.assign newLabels ((Opt.present (labelOf labels v)).getD (addressName v)) v) ∧
      ∀ r, r ∈ newLabels ∨ labelOf labels v = none ∧ r = (addressName v, v) →
        r ∈ Opt.assign newLabels ((Opt.present (labelOf labels v)).getD (addressName v)) v := by
  rw [names.present]
  -- An address with a label keeps it; otherwise the made name may be there already.
  cases found : labelOf labels v with
  | some name =>
    have old := labelOf_some found
    have same : Opt.assign newLabels name v = newLabels := by
      obtain ⟨extra, rfl, shape⟩ := grown.front
      refine assign_same (List.mem_map.mpr ⟨(name, v), List.mem_append_left _ old, rfl⟩) ?_
      intro r inside same
      obtain inOld | inNew := List.mem_append.mp inside
      · have first := lookup_mem names.distinct inOld
        rw [same, lookup_mem names.distinct old] at first
        exact (Option.some.inj first).symm
      · obtain ⟨isMade, inMade, none⟩ := shape r inNew
        exact absurd (same.symm.trans isMade) (names.new r.2 inMade none _ old)
    rw [Option.getD_some, same]
    exact ⟨grown, fun r either => either.resolve_right fun other => nomatch other.1⟩
  | none =>
    rw [Option.getD_none]
    by_cases known : addressName v ∈ newLabels.map Prod.fst
    · rw [assign_same known fun r inside same => names.made_entry grown here found inside same]
      refine ⟨grown, fun r either => either.elim id ?_⟩
      rintro ⟨-, rfl⟩
      obtain ⟨r, inside, same⟩ := List.mem_map.mp known
      have value := names.made_entry grown here found inside same
      exact (Prod.ext same value : r = (addressName v, v)) ▸ inside
    · have missing : (newLabels.lookup (addressName v)).isSome = false := by
        rw [Option.isSome_eq_false_iff, Option.isNone_iff_eq_none, List.lookup_eq_none_iff]
        exact fun r inside => bne_iff_ne.mpr fun same => known (same ▸ List.mem_map_of_mem inside)
      unfold Opt.assign
      rw [missing, if_neg Bool.false_ne_true]
      refine ⟨?_, ?_⟩
      · obtain ⟨extra, rfl, shape⟩ := grown.front
        refine ⟨extra ++ [(addressName v, v)], List.append_assoc .., ?_⟩
        exact List.forall_mem_append.mpr
          ⟨shape, List.forall_mem_singleton.mpr ⟨rfl, here, found⟩⟩
      · rintro r (old | ⟨-, rfl⟩)
        · exact List.mem_append_left _ old
        · exact List.mem_append_right _ List.mem_cons_self

theorem Grown.name {newLabels : Labels} (grown : Grown labels made newLabels) (v : Nat) :
    (labelOf newLabels v).getD (addressName v) = nameOf labels v := by
  obtain ⟨extra, rfl, shape⟩ := grown.front
  unfold nameOf labelOf
  rw [List.find?_append]
  cases old : labels.find? fun r => r.2 == v with
  | some r => rfl
  | none =>
    cases new : extra.find? fun r => r.2 == v with
    | none => rfl
    | some r =>
      have same : r.2 = v := beq_iff_eq.mp
        (@List.find?_some _ (fun r : Token × Nat => r.2 == v) r extra new)
      exact same ▸ (shape r (List.mem_of_find?_eq_some new)).1

/-! ## Copies -/

/-- The copy of a statement. -/
def rename (U : Unicode) (made : List Nat) (labels : Labels) (s : Statement) : Statement :=
  symbolizeOperand U made labels labels s

theorem symbolizeOperand_grown {newLabels : Labels} (grown : Grown labels made newLabels)
    (s : Statement) : symbolizeOperand U made labels newLabels s = rename U made labels s := by
  unfold rename symbolizeOperand
  simp only [grown.name]
  rfl

theorem rename_cases (s : Statement) :
    (rename U made labels s = s ∧ ∀ v, ¬ Refers U made labels s v) ∨
      ∃ v, Refers U made labels s v ∧ rename U made labels s = withLast s (nameOf labels v) :=
  symbolizeOperand_cases labels s

theorem rename_fields (s : Statement) :
    (rename U made labels s).op = s.op ∧ (rename U made labels s).pc = s.pc ∧
      (rename U made labels s).size = s.size ∧
      (rename U made labels s).args.length = s.args.length := by
  obtain ⟨-, -, op, pc, size, length⟩ := @symbolizeOperand_fields U made labels labels s
  exact ⟨op, pc, size, length⟩

theorem rename_instruction (s : Statement) :
    isInstruction (rename U made labels s) = isInstruction s := by
  unfold isInstruction
  rw [(rename_fields s).1]

/-- The statements of the result, and its labels. -/
structure Renamed (U : Unicode) (made : List Nat) (labels newLabels : Labels)
    (rest : List Statement) (r : List Statement × Labels) : Prop where
  grown : Grown labels made r.2
  kept : ∀ e ∈ newLabels, e ∈ r.2
  added : ∀ s ∈ rest, s.pc ∈ made → labelOf labels s.pc = none → (addressName s.pc, s.pc) ∈ r.2
  copied : ∀ s ∈ rest, rename U made labels s ∈ r.1
  only : ∀ q ∈ r.1, q.op = none ∨ ∃ s ∈ rest, q = rename U made labels s
  instructions : r.1.filter isInstruction =
    (rest.filter isInstruction).map (rename U made labels)
  payload : ∀ m, r.1.foldl (fun m s => max m (s.pc + s.size)) m =
    rest.foldl (fun m s => max m (s.pc + s.size)) m

theorem symbolizeFrom_renamed (names : Named U statements labels made) {newLabels : Labels}
    (grown : Grown labels made newLabels) (rest : List Statement) :
    Renamed U made labels newLabels rest (symbolizeFrom U made labels newLabels rest) := by
  induction rest generalizing newLabels with
  | nil => exact ⟨grown, fun _ here => here, nofun, nofun, nofun, rfl, fun _ => rfl⟩
  | cons s rest ih =>
    obtain ⟨labels', shape, next⟩ := @symbolizeFrom_cons U made labels newLabels s rest
    have tail : (symbolizeFrom U made labels newLabels (s :: rest)).2 =
        (symbolizeFrom U made labels labels' rest).2 := by
      rw [symbolizeFrom, next]
      split <;> rfl
    -- The label of this statement first, if its address is named.
    have grown' : Grown labels made labels' ∧ ∀ r, r ∈ newLabels ∨
        s.pc ∈ made ∧ labelOf labels s.pc = none ∧ r = (addressName s.pc, s.pc) → r ∈ labels' := by
      rw [next]
      split
      · rename_i named
        have here : s.pc ∈ made := List.contains_iff_mem.mp named
        obtain ⟨after, entries⟩ := grown.assign names here
        exact ⟨after, fun r either => entries r (either.imp_right And.right)⟩
      · rename_i unnamed
        exact ⟨grown, fun r either => either.resolve_right fun other =>
          unnamed (List.contains_iff_mem.mpr other.1)⟩
    rw [symbolizeOperand_grown grown'.1] at shape
    obtain ⟨grown'', kept, added, copied, only, instructions, payload⟩ := ih grown'.1
    obtain ⟨-, pc, size, -⟩ := @rename_fields U labels made s
    -- In front of the statement there is an anchor at most.
    have front : ∀ q ∈ (if made.contains s.pc && (present (labelOf labels s.pc)).isNone then
        [anchor s] else []), q = anchor s := by
      intro q here
      split at here
      · exact List.mem_singleton.mp here
      · cases here
    refine ⟨tail ▸ grown'', ?_, ?_, ?_, ?_, ?_, ?_⟩
    · exact fun e here => tail ▸ kept e (grown'.2 e (.inl here))
    · intro s' here named none
      rw [tail]
      obtain rfl | later := List.mem_cons.mp here
      · exact kept _ (grown'.2 _ (.inr ⟨named, none, rfl⟩))
      · exact added s' later named none
    · intro s' here
      rw [shape]
      obtain rfl | later := List.mem_cons.mp here
      · exact List.mem_append_right _ List.mem_cons_self
      · exact List.mem_append_right _ (List.mem_cons_of_mem _ (copied s' later))
    · intro q here
      rw [shape] at here
      obtain first | later := List.mem_append.mp here
      · rw [front q first]
        exact .inl rfl
      · obtain rfl | later := List.mem_cons.mp later
        · exact .inr ⟨s, List.mem_cons_self, rfl⟩
        · obtain bare | ⟨s', inside, same⟩ := only q later
          · exact .inl bare
          · exact .inr ⟨s', List.mem_cons_of_mem _ inside, same⟩
    · have none : List.filter isInstruction (if made.contains s.pc &&
          (present (labelOf labels s.pc)).isNone then [anchor s] else []) = [] :=
        List.filter_eq_nil_iff.mpr fun q here => by
          rw [front q here]
          exact Bool.false_ne_true
      rw [shape, List.filter_append, none, List.nil_append, List.filter_cons, List.filter_cons,
        rename_instruction, instructions]
      split <;> rfl
    · intro m
      have before : ∀ m, (if made.contains s.pc && (present (labelOf labels s.pc)).isNone then
          [anchor s] else []).foldl (fun m s => max m (s.pc + s.size)) m = m ∨
          (if made.contains s.pc && (present (labelOf labels s.pc)).isNone then
          [anchor s] else []).foldl (fun m s => max m (s.pc + s.size)) m = max m s.pc := by
        intro m
        split
        · exact .inr rfl
        · exact .inl rfl
      rw [shape, List.foldl_append, List.foldl_cons, List.foldl_cons, payload, pc, size]
      congr 1
      obtain same | same := before m
      · rw [same]
      · rw [same]
        omega

/-! ## Operands -/

theorem upper_addressName (v : Nat) : upper U (addressName v) = addressName v := by
  rw [upper_ascii U (Asm.name_ascii (addressName_valid v))]
  have same := Disas.normalize_hex 3 v
  unfold addressName Asm.normalize at *
  rw [List.map_append, same]
  rfl

theorem parseNumber_addressName (v : Nat) : parseNumber U (addressName v) = none :=
  parseNumber_other U _ (by decide) (by decide) (by decide) (by decide)

theorem Named.name (names : Named U statements labels made) {s : Statement} (here : s ∈ statements)
    {v : Nat} (refers : Refers U made labels s v) :
    upper U (nameOf labels v) = nameOf labels v ∧ parseNumber U (nameOf labels v) = none ∧
      (isReference s = true ∨
        startsWithV (nameOf labels v) = false ∧ nameOf labels v ≠ wordMemory) := by
  unfold nameOf
  cases found : labelOf labels v with
  | some name => exact names.operand s here v refers name found
  | none => exact ⟨upper_addressName v, parseNumber_addressName v, .inr ⟨rfl, nofun⟩⟩

section
variable {r : List Statement × Labels} (names : Named U statements labels made)
  (renamed : Renamed U made labels labels statements r)
include names renamed

theorem resolve_word {s : Statement} (here : s ∈ statements) {word : Token} (operand : word ∈ s.args) :
    resolve U r.2 word = resolve U labels word := by
  obtain ⟨extra, same, shape⟩ := renamed.grown.front
  have none : extra.lookup (upper U word) = none := by
    rw [List.lookup_eq_none_iff]
    intro e inside
    obtain ⟨isMade, inMade, new⟩ := shape e inside
    exact bne_iff_ne.mpr fun equal =>
      names.word e.2 inMade new s here word operand (equal.trans isMade)
  unfold resolve
  rw [same, List.lookup_append, none, Option.or_none]

theorem resolve_name {s : Statement} (here : s ∈ statements) {v : Nat}
    (refers : Refers U made labels s v) : resolve U r.2 (nameOf labels v) = some (v : Int) := by
  have found : r.2.lookup (nameOf labels v) = some v := by
    unfold nameOf
    cases label : labelOf labels v with
    | some name =>
      obtain ⟨extra, same, shape⟩ := renamed.grown.front
      have first := lookup_mem names.distinct (labelOf_some label)
      rw [same, Option.getD_some, List.lookup_append, first, Option.some_or]
    | none =>
      obtain ⟨q, inside, rfl⟩ := names.statement v refers.made
      exact lookup_only (renamed.added q inside refers.made label) fun e there same =>
        names.made_entry renamed.grown refers.made label there same
  unfold resolve
  rw [(names.name here refers).1, found]

end

/-! ## Statements -/

/-- The same to `transfer`: a word that is resolved alike, and taken for a register or for `[I]`
only where it is the same word. -/
structure SameWord (U : Unicode) (labels labels' : Labels) (a a' : Token) : Prop where
  resolves : resolve U labels' a' = resolve U labels a
  plain : a' = a ∨ (startsWithV a = false ∧ a ≠ wordMemory) ∧ startsWithV a' = false ∧ a' ≠ wordMemory

section
variable {labels' : Labels} {a b b' : Token}

theorem SameWord.tests (same : SameWord U labels labels' b b') :
    startsWithV b' = startsWithV b ∧ (b' == wordMemory) = (b == wordMemory) := by
  obtain rfl | ⟨⟨first, other⟩, first', other'⟩ := same.plain
  · exact ⟨rfl, rfl⟩
  · rw [first, first', beq_eq_false_iff_ne.mpr other, beq_eq_false_iff_ne.mpr other']
    exact ⟨rfl, rfl⟩

theorem SameWord.register (same : SameWord U labels labels' b b') (starts : startsWithV b = true) :
    b' = b := by
  obtain word | ⟨⟨first, _⟩, _⟩ := same.plain
  · exact word
  · rw [first] at starts
    cases starts

theorem operandValue_same (same : SameWord U labels labels' b b') (σ : Constants) :
    operandValue U labels' σ b' = operandValue U labels σ b := by
  unfold operandValue
  rw [same.tests.1, same.resolves]
  split
  · rw [same.register ‹_›]
  · rfl

theorem transferLoad_same (same : SameWord U labels labels' b b') (σ : Constants) :
    transferLoad U labels' a b' σ = transferLoad U labels a b σ := by
  unfold transferLoad
  rw [same.resolves, operandValue_same same, same.tests.1, same.tests.2]
  cases starts : startsWithV b with
  | true => rw [same.register starts]
  | false => simp only [Bool.and_false, Bool.false_eq_true, if_false]

theorem transferAdd_same (same : SameWord U labels labels' b b') (σ : Constants) :
    transferAdd U labels' a b' σ = transferAdd U labels a b σ := by
  unfold transferAdd
  rw [operandValue_same same, same.tests.1]
  cases starts : startsWithV b with
  | true => rw [same.register starts]
  | false => rfl

theorem transferLoad_index (σ : Constants) (resolves : resolve U labels' b' = resolve U labels b) :
    transferLoad U labels' wordI b' σ = transferLoad U labels wordI b σ := by
  unfold transferLoad
  rw [resolves]
  rfl

theorem transfer_jump {s : Statement}
    (op : s.op = some Mnemonic.jp.text ∨ s.op = some Mnemonic.call.text) (σ : Constants) :
    transfer U labels s σ = some (σ, []) := by
  obtain ⟨op', isOp, others⟩ : ∃ op', s.op = op' ∧ (op' == some Mnemonic.ld.text) = false ∧
      (op' == some Mnemonic.add.text) = false ∧ (op' == some Mnemonic.drw.text) = false ∧
      (clobbers.any fun m => op' == some m.text) = false := by
    obtain op | op := op
    · exact ⟨_, op, rfl, rfl, rfl, rfl⟩
    · exact ⟨_, op, rfl, rfl, rfl, rfl⟩
  unfold transfer
  rw [isOp]
  simp only [others, Bool.false_and, Bool.false_eq_true, if_false]
  cases args : s.args with
  | nil => rfl
  | cons a rest =>
    cases rest with
    | nil => rfl
    | cons b rest =>
      cases rest with
      | nil => rfl
      | cons c rest =>
        cases rest with
        | nil => rfl
        | cons d rest => rfl

theorem transfer_words {s q : Statement} {front : List Token} {last last' : Token}
    (op : q.op = s.op) (args : s.args = front ++ [last]) (args' : q.args = front ++ [last'])
    (resolves : resolve U labels' last' = resolve U labels last)
    (plain : isReference s = true ∨ SameWord U labels labels' last last') (σ : Constants) :
    transfer U labels' q σ = transfer U labels s σ := by
  by_cases jump : s.op = some Mnemonic.jp.text ∨ s.op = some Mnemonic.call.text
  · rw [transfer_jump jump, transfer_jump (op ▸ jump)]
  -- A reference is an operand of JP, CALL or LD I; anywhere else the words test alike.
  obtain ⟨isLoad, rfl⟩ | same : (s.op = some Mnemonic.ld.text ∧ front = [wordI]) ∨
      SameWord U labels labels' last last' := by
    refine plain.imp_left fun reference => ?_
    unfold isReference isOp at reference
    rw [args] at reference
    simp only [Bool.or_eq_true, Bool.and_eq_true, beq_iff_eq] at reference
    obtain either | ⟨⟨isLoad, length⟩, first⟩ := reference
    · exact absurd either jump
    · rw [List.length_append, List.length_singleton] at length
      obtain ⟨a, rfl⟩ := List.length_eq_one_iff.mp (Nat.succ.inj length)
      exact ⟨isLoad, congrArg (fun a => [a]) (Option.some.inj first)⟩
  · rw [transfer_load isLoad args, transfer_load (op.trans isLoad) args',
      transferLoad_index σ resolves]
  · unfold transfer
    rw [op, args, args']
    cases front with
    | nil =>
      simp only [List.nil_append, same.tests.1]
      cases starts : startsWithV last with
      | true => rw [same.register starts]
      | false => simp only [Bool.and_false, Bool.false_eq_true, if_false]
    | cons a front =>
      cases front with
      | nil =>
        simp only [List.singleton_append, transferLoad_same same, transferAdd_same same]
      | cons b front =>
        cases front with
        | nil => simp only [List.cons_append, List.nil_append, same.resolves]
        | cons c front =>
          cases front <;> rfl

end

theorem transitions_words {labels' : Labels} {s q : Statement} (op : q.op = s.op) (pc : q.pc = s.pc)
    (length : q.args.length = s.args.length) (dest : target U labels' q = target U labels s)
    (returns : List Nat) : transitions U labels' q returns = transitions U labels s returns := by
  unfold transitions successors isSkip
  rw [op, pc, length, dest]

section
variable {r : List Statement × Labels} (names : Named U statements labels made)
  (renamed : Renamed U made labels labels statements r)
include names renamed

theorem rename_target {s : Statement} (here : s ∈ statements) :
    target U r.2 (rename U made labels s) = target U labels s := by
  obtain ⟨same, -⟩ | ⟨v, refers, same⟩ := @rename_cases U labels made s
  · rw [same]
    unfold target
    cases found : s.args.getLast? with
    | none => rfl
    | some word => exact resolve_word names renamed here (List.mem_of_getLast? found)
  · rw [same, refers.target]
    show (s.args.dropLast ++ [nameOf labels v]).getLast?.bind _ = _
    rw [List.getLast?_concat]
    exact resolve_name names renamed here refers

theorem rename_transitions {s : Statement} (here : s ∈ statements) (returns : List Nat) :
    transitions U r.2 (rename U made labels s) returns = transitions U labels s returns := by
  obtain ⟨op, pc, -, length⟩ := @rename_fields U labels made s
  exact transitions_words op pc length (rename_target names renamed here) returns

theorem rename_transfer {s : Statement} (here : s ∈ statements) (σ : Constants) :
    transfer U r.2 (rename U made labels s) σ = transfer U labels s σ := by
  obtain ⟨same, -⟩ | ⟨v, refers, same⟩ := @rename_cases U labels made s
  · rw [same]
    obtain nil | ⟨front, last, args⟩ := List.eq_nil_or_concat' s.args
    · unfold transfer
      rw [nil]
    · have resolves := resolve_word names renamed here
        (args ▸ List.mem_append_right _ List.mem_cons_self : last ∈ s.args)
      exact transfer_words rfl args args resolves (.inr ⟨resolves, .inl rfl⟩) σ
  · obtain ⟨front, last, args, numeric⟩ := numericLast_last refers.numeric
    have resolves : resolve U r.2 (nameOf labels v) = resolve U labels last := by
      rw [resolve_name names renamed here refers, ← refers.target]
      unfold target
      rw [args, List.getLast?_concat]
      rfl
    have number : startsWithV last = false ∧ last ≠ wordMemory := by
      constructor
      · rw [← Bool.not_eq_true]
        intro starts
        obtain ⟨rest, rfl⟩ := List.head?_eq_some_iff.mp (beq_iff_eq.mp starts)
        rw [parseNumber_letter U rest (by decide)] at numeric
        cases numeric
      · rintro rfl
        rw [show wordMemory = '[' :: ['I', ']'] from rfl,
          parseNumber_letter U _ (by decide)] at numeric
        cases numeric
    rw [same]
    refine transfer_words (s := s) (q := withLast s (nameOf labels v)) rfl args ?_ resolves ?_ σ
    · show s.args.dropLast ++ [_] = _
      rw [args, List.dropLast_concat]
    · exact (names.name here refers).2.2.imp_right fun plain => ⟨resolves, .inr ⟨number, plain⟩⟩

end

/-! ## The analysis -/

theorem instructionAt_rename {r : List Statement × Labels}
    (renamed : Renamed U made labels labels statements r) (pc : Nat) :
    instructionAt r.1 pc = (instructionAt statements pc).map (rename U made labels) := by
  have filtered (ss : List Statement) : instructionAt ss pc =
      (ss.filter isInstruction).reverse.find? fun s => s.pc == pc := by
    unfold instructionAt
    rw [← List.filter_reverse, List.find?_filter]
    congr 1
    funext s
    rw [Bool.and_comm, beq_eq_decide]
    simp
  rw [filtered, filtered, renamed.instructions, ← List.map_reverse, List.find?_map]
  congr 1
  congr 1
  funext s
  show ((rename U made labels s).pc == pc) = _
  rw [(rename_fields s).2.1]

section
variable {r : List Statement × Labels} (names : Named U statements labels made)
  (renamed : Renamed U made labels labels statements r)
include names renamed

theorem visit_rename : visit U r.2 r.1 = visit U labels statements := by
  have passes : passOn U r.2 r.1 = passOn U labels statements := by
    funext c σ
    unfold passOn
    rw [instructionAt_rename renamed]
    cases found : instructionAt statements c.1 with
    | none => rfl
    | some s =>
      have here := (instructionAt_mem found).1
      simp only [Option.map_some, rename_transfer names renamed here,
        rename_transitions names renamed here]
  have records : record U r.2 r.1 = record U labels statements := by
    funext c σ a
    unfold record
    rw [instructionAt_rename renamed]
    cases found : instructionAt statements c.1 with
    | none => rfl
    | some s =>
      have here := (instructionAt_mem found).1
      simp only [Option.map_some, rename_transfer names renamed here,
        rename_transitions names renamed here]
  funext p
  unfold visit flow
  rw [passes, records]

theorem analyze_rename : analyze U r.2 r.1 = analyze U labels statements := by
  have payload : payloadEnd r.1 = payloadEnd statements := renamed.payload entry
  have hazard : writeHazard r.1 = writeHazard statements := by
    funext a access
    unfold writeHazard
    rw [payload]
  unfold analyze fixpoint writeHazards
  rw [visit_rename names renamed, hazard]

end

end

section
variable {U : Unicode} {text : Text} {statements : List Statement} {labels : Labels}

theorem Fresh.renamed (parsed : parseSource U text = .ok (statements, labels))
    (fresh : Fresh U statements labels) :
    Renamed U (generated U statements labels) labels labels statements
      (symbolize U statements labels) :=
  symbolizeFrom_renamed (fresh.named parsed) .refl statements

theorem symbolize_analyze (parsed : parseSource U text = .ok (statements, labels))
    (fresh : Fresh U statements labels) :
    analyze U (symbolize U statements labels).2 (symbolize U statements labels).1 =
      analyze U labels statements :=
  analyze_rename (fresh.named parsed) (fresh.renamed parsed)

end

end ChipEight.Opt
