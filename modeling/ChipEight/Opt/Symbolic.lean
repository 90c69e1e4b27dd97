import ChipEight.Disas.Reencode
import ChipEight.Opt.Data
import ChipEight.Opt.Placed

/-! The ROM of a symbolized program.

`symbolize_in_rom_addresses` deletes nothing, so that every statement stays at its address.
What can go wrong is a name: a label it makes may be one of the source already, or stand in
the place of a number the assembler reads as another one.
-/

set_option autoImplicit false

namespace ChipEight.Opt

open Asm (Text Token Layout Symbol)
open Disas (hex)

/-! ## Names -/

theorem addressName_valid (v : Nat) : Asm.isName (addressName v) = true := by
  show (true && (['D', 'D', 'R'] ++ hex 3 v).all fun c => Asm.isalnum c || c == '_') = true
  rw [Bool.true_and, List.all_append, Bool.and_eq_true]
  exact ⟨by decide, Disas.hex_name 3 v⟩

theorem addressName_inj {v w : Nat} (small : v < limit) (small' : w < limit)
    (same : addressName v = addressName w) : v = w :=
  @Disas.hex_inj 3 v w small small' (List.append_cancel_left same)

theorem encode_addressName (v : Nat) : encode (addressName v) = addressName v :=
  encode_ascii (Asm.name_ascii (addressName_valid v))

/-! ## Labels -/

/-- The labels are all there, and a statement has a label or an operation. -/
structure Listed (statements : List Statement) (labels : Labels) : Prop where
  labels : ∀ s ∈ statements, ∀ name, s.label = some name → (name, s.pc) ∈ labels
  some : ∀ s ∈ statements, s.label = none → s.op ≠ none

theorem parseLine_listed {U : Unicode} {st st' : Parsed} {numbered : Nat × Text}
    (listed : Listed st.statements st.labels) (parsed : parseLine U st numbered = .ok st') :
    Listed st'.statements st'.labels := by
  unfold parseLine at parsed
  dsimp only at parsed
  split at parsed
  · cases parsed
    exact listed
  · rename_i words
    obtain ⟨labels, added, parsed⟩ := Asm.bind_ok.mp parsed
    obtain ⟨size, -, parsed⟩ := Asm.bind_ok.mp parsed
    -- A line puts at most one label in the table, and takes none out.
    have known : ∀ r ∈ st.labels, r ∈ labels := by
      intro r here
      unfold addLabel at added
      split at added
      · cases added
        exact here
      · split at added
        · cases added
        split at added
        · cases added
        · cases added
          exact List.mem_append_left _ here
    split at parsed
    · cases parsed
    · cases parsed
      constructor
      · intro s here name label
        obtain old | new := List.mem_append.mp here
        · exact known _ (listed.labels s old name label)
        · rw [List.mem_singleton.mp new] at label ⊢
          have isLabel : (splitLabel U (tokens numbered.2)).1 = some name := label
          unfold addLabel at added
          rw [isLabel] at added
          dsimp only at added
          split at added
          · cases added
          split at added
          · cases added
          · cases added
            exact List.mem_append_right _ (List.mem_singleton.mpr rfl)
      · intro s here none
        obtain old | new := List.mem_append.mp here
        · exact listed.some s old none
        · rw [List.mem_singleton.mp new] at none ⊢
          have noLabel : (splitLabel U (tokens numbered.2)).1 = Option.none := none
          show (splitLabel U (tokens numbered.2)).2.head?.map (upper U) ≠ Option.none
          cases shape : tokens numbered.2 with
          | nil => exact absurd (by rw [shape]; rfl) words
          | cons w ws =>
            rw [shape] at noLabel
            unfold splitLabel at noLabel ⊢
            dsimp only at noLabel ⊢
            split at noLabel
            · cases noLabel
            · rename_i other
              rw [if_neg other]
              nofun

section
variable {U : Unicode} {text : Text} {statements : List Statement} {labels : Labels}

theorem parseSource_listed (parsed : parseSource U text = .ok (statements, labels)) :
    Listed statements labels :=
  parseSource_keeps ⟨nofun, nofun⟩ (fun _ _ _ => parseLine_listed) parsed

/-! ## Generated names -/

/-- An instruction has the address of its operand as a number. -/
def namedByNumber (U : Unicode) (statements : List Statement) (labels : Labels) (v : Nat) : Bool :=
  v < payloadEnd statements && statements.any fun r =>
    isReference r && numericLast U r && target U labels r == some (v : Int)

/-- The address of a statement is named by its number, and has no label. -/
def needsLabel (U : Unicode) (statements : List Statement) (labels : Labels) (s : Statement) : Bool :=
  namedByNumber U statements labels s.pc &&
    !statements.any fun r => r.label.isSome && r.pc == s.pc

theorem numericReference_eq {r : Statement} {v : Nat} :
    numericReference U statements labels r = some v ↔
      isReference r = true ∧ numericLast U r = true ∧ target U labels r = some (v : Int) ∧
        entry ≤ v ∧ v < payloadEnd statements ∧ ∃ s ∈ statements, s.pc = v := by
  unfold numericReference
  constructor
  · intro found
    split at found
    · rename_i words
      obtain ⟨reference, numeric⟩ := Bool.and_eq_true_iff.mp words
      split at found
      · cases found
      · rename_i value isTarget
        split at found
        · rename_i inside
          cases found
          simp only [Bool.and_eq_true, decide_eq_true_eq, List.any_eq_true] at inside
          obtain ⟨⟨low, high⟩, s, here, same⟩ := inside
          have equal : (s.pc : Int) = value := beq_iff_eq.mp same
          have whole : ((value.toNat : Nat) : Int) = value := by omega
          exact ⟨reference, numeric, whole.symm ▸ isTarget, by omega, by omega, s, here, by omega⟩
        · cases found
    · cases found
  · rintro ⟨reference, numeric, isTarget, low, high, s, here, rfl⟩
    have inside : ((entry : Int) ≤ (s.pc : Int) && (s.pc : Int) < payloadEnd statements &&
        statements.any fun r => (r.pc : Int) == s.pc) = true := by
      simp only [Bool.and_eq_true, decide_eq_true_eq, List.any_eq_true]
      exact ⟨⟨by omega, by omega⟩, s, here, beq_self_eq_true _⟩
    rw [reference, numeric, Bool.and_self, if_pos rfl, isTarget]
    exact if_pos inside

theorem Follows.above {start stop : Nat} (follows : Follows U start statements stop) :
    ∀ s ∈ statements, start ≤ s.pc := by
  induction follows with
  | nil => exact nofun
  | cons _ _ ih =>
    exact List.forall_mem_cons.mpr ⟨Nat.le_refl _, fun s later =>
      Nat.le_trans (Nat.le_add_right _ _) (ih s later)⟩

theorem mem_generated {stop v : Nat} (follows : Follows U entry statements stop) :
    v ∈ generated U statements labels ↔
      namedByNumber U statements labels v = true ∧ ∃ s ∈ statements, s.pc = v := by
  unfold generated namedByNumber
  simp only [List.mem_filterMap, numericReference_eq, Bool.and_eq_true, decide_eq_true_eq,
    List.any_eq_true, beq_iff_eq]
  constructor
  · rintro ⟨r, here, reference, numeric, isTarget, -, high, statement⟩
    exact ⟨⟨high, r, here, ⟨reference, numeric⟩, isTarget⟩, statement⟩
  · rintro ⟨⟨high, r, here, ⟨reference, numeric⟩, isTarget⟩, s, inside, rfl⟩
    exact ⟨r, here, reference, numeric, isTarget, follows.above s inside, high, s, inside, rfl⟩

theorem labelOf_isNone (labelled : Labelled statements labels) (listed : Listed statements labels)
    (v : Nat) : (present (labelOf labels v)).isNone =
      !statements.any fun r => r.label.isSome && r.pc == v := by
  rw [Bool.eq_iff_iff, Bool.not_eq_true', List.any_eq_false, Option.isNone_iff_eq_none]
  simp only [Bool.and_eq_true, beq_iff_eq, Option.isSome_iff_exists]
  constructor
  · rintro none r here ⟨⟨name, label⟩, rfl⟩
    have inside := listed.labels r here name label
    cases found : labelOf labels r.pc with
    | none => exact labelOf_none found inside
    | some name' =>
      have some := (labelled.labels _ (labelOf_some found)).1
      rw [found, present_some some] at none
      cases none
  · intro unlabelled
    cases found : labelOf labels v with
    | none => rfl
    | some name =>
      obtain ⟨-, r, here, label, address⟩ := labelled.labels _ (labelOf_some found)
      exact absurd ⟨⟨name, label⟩, address⟩ (unlabelled r here)

theorem needsLabel_eq {stop : Nat} (labelled : Labelled statements labels)
    (listed : Listed statements labels) (follows : Follows U entry statements stop) {s : Statement}
    (here : s ∈ statements) :
    ((generated U statements labels).contains s.pc && (present (labelOf labels s.pc)).isNone) =
      needsLabel U statements labels s := by
  have named : (generated U statements labels).contains s.pc =
      namedByNumber U statements labels s.pc := by
    rw [Bool.eq_iff_iff, List.contains_iff_mem, mem_generated follows]
    exact and_iff_left ⟨s, here, rfl⟩
  rw [named, labelOf_isNone labelled listed]
  rfl

/-- The labels of the result: those that are put, and those that were there. -/
theorem symbolizeFrom_labels {made : List Nat} {newLabels : Labels} (rest : List Statement) :
    ((symbolizeFrom U made labels newLabels rest).1.filterMap Statement.label).Perm
      (((rest.filter fun s => made.contains s.pc && (present (labelOf labels s.pc)).isNone).map
        fun s => addressName s.pc) ++ rest.filterMap Statement.label) := by
  induction rest generalizing newLabels with
  | nil => exact .refl _
  | cons s rest ih =>
    obtain ⟨labels', shape, -⟩ := @symbolizeFrom_cons U made labels newLabels s rest
    have label := (@symbolizeOperand_fields U made labels labels' s).2.1
    rw [shape, List.filterMap_append, labels_cons, labels_cons, label, List.filter_cons]
    have moved := ((@ih labels').append_left s.label.toList).trans
      (List.perm_append_comm_assoc s.label.toList _ _)
    split
    · exact moved.cons (addressName s.pc)
    · exact moved

/-! ## Distinct labels -/

theorem Follows.apart {start stop : Nat} (follows : Follows U start statements stop) :
    statements.Pairwise fun s t => s.pc + s.size ≤ t.pc := by
  induction follows with
  | nil => exact .nil
  | cons _ later ih => exact .cons later.above ih

theorem Follows.within {start stop : Nat} (follows : Follows U start statements stop) :
    ∀ s ∈ statements, s.pc + s.size ≤ stop := by
  induction follows with
  | nil => exact nofun
  | cons _ later ih => exact List.forall_mem_cons.mpr ⟨later.le, ih⟩

section
variable {stop : Nat} {layout : Layout} {bytes : List Byte}

theorem needsLabel_positive (listed : Listed statements labels)
    (printed : ∀ s ∈ statements, Printed s) (placed : WellPlaced statements stop bytes)
    {s : Statement} (here : s ∈ statements) (needs : needsLabel U statements labels s = true) :
    0 < s.size := by
  have unlabelled : s.label = none := by
    have none := (Bool.not_eq_true' _).mp (Bool.and_eq_true_iff.mp needs).2
    have noLabel := List.any_eq_false.mp none s here
    cases label : s.label with
    | none => rfl
    | some name => exact absurd (by rw [label, beq_self_eq_true]; rfl) noLabel
  have some := listed.some s here unlabelled
  have words : s.toLine.statement ≠ [] := by
    intro empty
    obtain ⟨head, -⟩ := words_head_tail (printed s here).bare
    have nothing : s.words = [] := List.map_eq_nil_iff.mp empty
    rw [nothing] at head
    exact some head.symm
  exact Asm.lineSize_positive (toLine_plain (printed s here).bare (printed s here).other) words
    (placed.written s here)

theorem needsLabel_distinct (listed : Listed statements labels)
    (printed : ∀ s ∈ statements, Printed s) (follows : Follows U entry statements stop)
    (placed : WellPlaced statements stop bytes) :
    ((statements.filter (needsLabel U statements labels)).map fun s => addressName s.pc).Nodup := by
  have small {s : Statement} (here : s ∈ statements.filter (needsLabel U statements labels)) :
      0 < s.size ∧ s.pc < limit := by
    obtain ⟨inside, needs⟩ := List.mem_filter.mp here
    have some := needsLabel_positive listed printed placed inside needs
    have ends := follows.within s inside
    have room := placed.room
    have whole : memorySize = limit := rfl
    exact ⟨some, by omega⟩
  refine List.pairwise_map.mpr ((follows.apart.filter _).imp_of_mem fun here here' apart same => ?_)
  have equal := addressName_inj (small here).2 (small here').2 same
  have some := (small here).1
  omega

theorem symbolize_valid (placed : WellPlaced statements stop bytes) :
    ∀ name ∈ (symbolize U statements labels).1.filterMap Statement.label,
      Asm.isName (encode name) = true := by
  intro name here
  obtain made | old := List.mem_append.mp ((symbolizeFrom_labels statements).mem_iff.mp here)
  · obtain ⟨s, -, rfl⟩ := List.mem_map.mp made
    rw [encode_addressName]
    exact addressName_valid s.pc
  · exact placed.valid name old

theorem symbolize_labels (labelled : Labelled statements labels) (listed : Listed statements labels)
    (follows : Follows U entry statements stop) :
    ((symbolize U statements labels).1.filterMap Statement.label).Perm
      (((statements.filter (needsLabel U statements labels)).map fun s => addressName s.pc) ++
        statements.filterMap Statement.label) := by
  have same : statements.filter (fun s => (generated U statements labels).contains s.pc &&
      (present (labelOf labels s.pc)).isNone) =
      statements.filter (needsLabel U statements labels) :=
    List.filter_congr fun s here => needsLabel_eq labelled listed follows here
  rw [← same]
  exact symbolizeFrom_labels statements

theorem symbolize_distinct_iff (labelled : Labelled statements labels)
    (listed : Listed statements labels) (printed : ∀ s ∈ statements, Printed s)
    (follows : Follows U entry statements stop) (placed : WellPlaced statements stop bytes) :
    ((symbolize U statements labels).1.filterMap Statement.label).Nodup ↔
      ∀ s ∈ statements, needsLabel U statements labels s = true →
        ∀ r ∈ statements, r.label ≠ some (addressName s.pc) := by
  rw [(symbolize_labels labelled listed follows).nodup_iff, List.nodup_append]
  constructor
  · rintro ⟨-, -, apart⟩ s here needs r inside label
    exact apart _ (List.mem_map.mpr ⟨s, List.mem_filter.mpr ⟨here, needs⟩, rfl⟩) _
      (List.mem_filterMap.mpr ⟨r, inside, label⟩) rfl
  · intro fresh
    refine ⟨needsLabel_distinct listed printed follows placed, placed.distinct, ?_⟩
    rintro _ made _ old rfl
    obtain ⟨s, here, rfl⟩ := List.mem_map.mp made
    obtain ⟨inside, needs⟩ := List.mem_filter.mp here
    obtain ⟨r, there, label⟩ := List.mem_filterMap.mp old
    exact fresh s inside needs r there label

/-! ## Operands -/

theorem parseNumber_name {t : Token} (valid : Asm.isName (encode t) = true) :
    parseNumber U t = none := by
  rw [encode_ascii (ascii_of_encode (Asm.name_ascii valid))] at valid
  cases t with
  | nil => cases valid
  | cons c rest =>
    have start := (Bool.and_eq_true_iff.mp valid).1
    have small : c.toNat < 128 := Asm.name_ascii valid c List.mem_cons_self
    have other (d : Char) (no : Asm.isNameStart d = false) : c ≠ d := by
      rintro rfl
      rw [show Asm.isNameStart c = true from start] at no
      cases no
    refine parseNumber_other U rest small ?_ (other '-' rfl) (other '+' rfl)
    rw [← Bool.not_eq_true]
    intro isDigit
    have digit : Asm.digitValue c = some (c.toNat - '0'.toNat) := by
      unfold Asm.digitValue
      rw [if_pos isDigit]
    have large := Asm.digitValue_nameStart start digit
    simp only [Asm.isdigit, Asm.between, Char.reduceToNat, Bool.and_eq_true,
      decide_eq_true_eq] at isDigit large
    omega

theorem parseNumber_reg {t : Token} {x : Reg} (known : Asm.reg t = .ok x) :
    parseNumber U t = none := by
  unfold Asm.reg at known
  split at known
  · exact parseNumber_letter U _ (by decide)
  · cases known

theorem parseNumber_form {t : Token} (form : t ∈ Asm.loadForms.map Prod.fst) :
    parseNumber U t = none := by
  have listed : t ∈ [Asm.wordDT, Asm.wordK, Asm.wordMemory] := form
  simp only [List.mem_cons, List.not_mem_nil, or_false] at listed
  obtain rfl | rfl | rfl := listed <;> exact parseNumber_letter U _ (by decide)

theorem parseNumber_keyword {t : Token} (keyword : Asm.IsKeyword (encode t)) :
    parseNumber U t = none := by
  obtain ⟨x, known⟩ | form := keyword
  · rw [encode_ascii (ascii_of_encode (Asm.reg_ascii known))] at known
    exact parseNumber_reg known
  · have small : ∀ w ∈ Asm.loadForms.map Prod.fst, ∀ c ∈ w, c.toNat < 128 := by decide
    rw [encode_ascii (ascii_of_encode (small _ form))] at form
    exact parseNumber_form form

theorem value_numeric {symbols : List Symbol} (names : ∀ r ∈ symbols, Asm.isName r.name = true)
    {t : Token} {v : Nat} (numeric : (parseNumber U t).isSome = true) (small : v ≤ 0xffff) :
    Asm.value symbols true (encode t) = .ok v ↔ Asm.strtoul (encode t) = some v := by
  unfold Asm.value
  cases number : Asm.strtoul (encode t) with
  | some m =>
    dsimp only
    split
    · refine ⟨nofun, fun same => ?_⟩
      have equal := Option.some.inj same
      omega
    · exact ⟨fun same => congrArg some (Except.ok.inj same),
        fun same => congrArg Except.ok (Option.some.inj same)⟩
  | none =>
    have unknown : Asm.lookup symbols (encode t) = none := by
      rw [Option.eq_none_iff_forall_ne_some]
      intro symbol found
      have same : symbol.name = encode t := beq_iff_eq.mp
        (@List.find?_some _ (fun s : Symbol => s.name == encode t) symbol symbols found)
      have valid := names symbol (List.mem_of_find?_eq_some found)
      rw [same] at valid
      rw [parseNumber_name valid] at numeric
      cases numeric
    dsimp only
    rw [unknown]
    exact ⟨nofun, nofun⟩

/-- The tables of a program and of its copies. -/
structure Tables (program : List Statement) (symbols symbols' : List Symbol) : Prop where
  below : Asm.Below True (Asm.value symbols true) (Asm.value symbols' true)
  names : ∀ r ∈ symbols, Asm.isName r.name = true
  anchors : ∀ name v, Anchored program name v → Asm.value symbols' true (encode name) = .ok v

/-- A copy has the bytes of its statement just if the number in the place of a label is read
as the address of the label. -/
theorem copy_written {program : List Statement} {made : List Nat} {symbols symbols' : List Symbol}
    {s q : Statement} (tables : Tables program symbols symbols')
    (copy : Copy U made labels program s q) (printed : Printed s)
    (addresses : ∀ v ∈ made, 256 ≤ v ∧ v ≤ 0xffff)
    (written : Asm.lineSize (Asm.value symbols true) s.pc s.toLine.statement =
      .ok (s.size, bytesOf bytes s)) :
    Asm.lineSize (Asm.value symbols' true) q.pc q.toLine.statement = .ok (q.size, bytesOf bytes q) ↔
      ∀ v, Refers U made labels s v → ∀ last, s.args.getLast? = some last →
        Asm.strtoul (encode last) = some v := by
  cases copy with
  | same none =>
    refine ⟨fun _ v refers => absurd refers (none v), fun _ => ?_⟩
    obtain ⟨r, known, same⟩ := Asm.lineSize_likewise tables.below s.pc
      (toLine_plain printed.bare printed.other) _ written
    rw [known, same trivial]
  | @renamed v name refers anchored =>
    obtain ⟨front, last, args, numeric⟩ := numericLast_last refers.numeric
    obtain ⟨large, small⟩ := addresses v refers.made
    cases isOp : s.op with
    | none =>
      have op := refers.op
      rw [isOp] at op
      cases op
    | some op =>
      -- Both lines end in one operand, and the words in front of it are the same.
      have old : s.toLine.statement = encode op :: (front.map encode ++ [encode last]) := by
        show (s.op.toList ++ s.args).map encode = _
        rw [isOp, args, List.map_append, List.map_append]
        rfl
      have new : (withLast s name).toLine.statement =
          encode op :: (front.map encode ++ [encode name]) := by
        show (s.op.toList ++ (s.args.dropLast ++ [name])).map encode = _
        rw [isOp, args, List.dropLast_concat, List.map_append, List.map_append]
        rfl
      have plain : encode op ≠ Asm.dirOrg := by
        intro isOrg
        rw [(encode_eq_ascii (by decide)).mp isOrg] at isOp
        exact printed.other isOp
      have number : ¬ Asm.IsKeyword (encode last) := by
        intro keyword
        rw [parseNumber_keyword keyword] at numeric
        cases numeric
      rw [old] at written
      rw [new]
      refine (Asm.lineSize_last tables.below plain number large (tables.anchors name v anchored)
        written).trans ((value_numeric tables.names numeric small).trans ?_)
      rw [args]
      constructor
      · intro same w refers' a isLast
        rw [List.getLast?_concat] at isLast
        rw [← Option.some.inj isLast, refers'.unique refers]
        exact same
      · intro all
        exact all v refers last List.getLast?_concat

/-! ## Programs -/

theorem symbolize_labelled {s : Statement} (here : s ∈ statements) :
    ∃ q ∈ (symbolize U statements labels).1, q.label = s.label ∧ q.pc = s.pc := by
  obtain ⟨labels', copied⟩ := @symbolizeFrom_copy U (generated U statements labels) labels labels
    statements s here
  obtain ⟨-, label, -, pc, -⟩ :=
    @symbolizeOperand_fields U (generated U statements labels) labels labels' s
  exact ⟨_, copied, label, pc⟩

theorem symbolize_tables (placed : WellPlaced statements stop bytes)
    (distinct : ((symbolize U statements labels).1.filterMap Statement.label).Nodup) :
    Tables (symbolize U statements labels).1 (symbolsOf statements)
      (symbolsOf (symbolize U statements labels).1) where
  below := by
    refine Asm.below_larger fun a symbol found => ?_
    obtain ⟨s, here, name, label, rfl⟩ := mem_symbolsOf.mp (List.mem_of_find?_eq_some found)
    have same : encode name = a := beq_iff_eq.mp
      (@List.find?_some _ (fun s : Symbol => s.name == a) _ _ found)
    obtain ⟨q, inside, sameLabel, samePc⟩ := @symbolize_labelled U statements labels s here
    rw [← same, lookup_symbolsOf (symbolize_valid placed) distinct inside (sameLabel.trans label),
      samePc]
  names r here := by
    obtain ⟨s, inside, name, label, rfl⟩ := mem_symbolsOf.mp here
    exact placed.valid name (List.mem_filterMap.mpr ⟨s, inside, label⟩)
  anchors name v := by
    rintro ⟨q, here, label, rfl⟩
    have valid := symbolize_valid placed name (List.mem_filterMap.mpr ⟨q, here, label⟩)
    exact Asm.value_label true valid
      (lookup_symbolsOf (symbolize_valid placed) distinct here label)

theorem forall₂_right {α β : Type} {P : α → β → Prop} {W : β → Prop} {C : α → Prop} {xs : List α}
    {ys : List β} (pairs : List.Forall₂ P xs ys)
    (each : ∀ x ∈ xs, ∀ y ∈ ys, P x y → (W y ↔ C x)) : (∀ y ∈ ys, W y) ↔ ∀ x ∈ xs, C x := by
  induction pairs with
  | nil => exact ⟨fun _ => nofun, fun _ => nofun⟩
  | @cons x y xs ys here _ ih =>
    have later := ih fun x' inside y' inside' =>
      each x' (List.mem_cons_of_mem _ inside) y' (List.mem_cons_of_mem _ inside')
    rw [List.forall_mem_cons, List.forall_mem_cons, later,
      each x List.mem_cons_self y List.mem_cons_self here]

theorem symbolize_written (labelled : Labelled statements labels)
    (printed : ∀ s ∈ statements, Printed s) (follows : Follows U entry statements stop)
    (placed : WellPlaced statements stop bytes)
    (distinct : ((symbolize U statements labels).1.filterMap Statement.label).Nodup) :
    (∀ q ∈ (symbolize U statements labels).1,
        Asm.lineSize (Asm.value (symbolsOf (symbolize U statements labels).1) true) q.pc
          q.toLine.statement = .ok (q.size, bytesOf bytes q)) ↔
      ∀ s ∈ statements, ∀ v, Refers U (generated U statements labels) labels s v →
        ∀ last, s.args.getLast? = some last → Asm.strtoul (encode last) = some v := by
  have resolved := symbolize_resolved labelled distinct
  have copies := @symbolizeFrom_copies U _ labels _ labels statements resolved
    ⟨resolved.labelled, fun _ here => here⟩ Option.isSome rfl
  have addresses : ∀ v ∈ generated U statements labels, 256 ≤ v ∧ v ≤ 0xffff := by
    intro v here
    obtain ⟨s, inside, rfl⟩ := generated_statement here
    have low := follows.above s inside
    have high := follows.within s inside
    have room := placed.room
    have start : entry = 512 := rfl
    have whole : memorySize = 4096 := rfl
    omega
  have pairs := forall₂_right copies fun s here q _ copy =>
    copy_written (symbolize_tables placed distinct) copy (printed s (List.mem_filter.mp here).1)
      addresses (placed.written s (List.mem_filter.mp here).1)
  constructor
  · intro written s here v refers
    have words : s.op.isSome = true := by
      have op := refers.op
      cases isOp : s.op with
      | none =>
        rw [isOp] at op
        cases op
      | some op => rfl
    exact pairs.mp (fun q here => written q (List.mem_filter.mp here).1) s
      (List.mem_filter.mpr ⟨here, words⟩) v refers
  · intro alike q here
    cases words : q.op with
    | none =>
      -- a label alone
      have printed' := symbolize_printed printed q here
      have nothing : q.toLine.statement = [] := by
        show (q.op.toList ++ q.args).map encode = []
        rw [words, printed'.bare words]
        rfl
      have size : q.size = 0 := by
        have follows' : Follows U entry (symbolize U statements labels).1 stop :=
          symbolizeFrom_follows follows fun s inside => (printed s inside).other
        have sized := follows'.sized here
        rw [words] at sized
        exact (Except.ok.inj sized).symm
      rw [nothing, size, bytesOf, size, List.take_zero]
      rfl
    | some op =>
      refine pairs.mpr (fun s inside => alike s (List.mem_filter.mp inside).1) q ?_
      exact List.mem_filter.mpr ⟨here, by rw [words]; rfl⟩

/-- What the labels have to be for the symbolized program to be the same. -/
structure Symbolizable (U : Unicode) (statements : List Statement) (labels : Labels) : Prop where
  assembles : ∃ layout bytes, Assembled statements layout bytes
  fresh : ∀ s ∈ statements, needsLabel U statements labels s = true →
    ∀ r ∈ statements, r.label ≠ some (addressName s.pc)
  room : (statements.filter (needsLabel U statements labels)).length +
    (statements.filterMap Statement.label).length ≤ Asm.maxSymbols
  alike : ∀ s ∈ statements, ∀ r ∈ statements, namedByNumber U statements labels r.pc = true →
    numericLast U s = true → target U labels s = some (r.pc : Int) →
    ∀ last, s.args.getLast? = some last → Asm.strtoul (encode last) = some r.pc

/-- Symbolization alone: both programs assemble to the same bytes, and every label is that of
one statement. -/
def KeepsBytes (U : Unicode) (statements : List Statement) (labels : Labels) : Prop :=
  ∃ layout layout' bytes, Assembled statements layout bytes ∧
    Assembled (symbolize U statements labels).1 layout' bytes ∧
    ((symbolize U statements labels).1.filterMap Statement.label).Nodup ∧
    ∀ r ∈ (symbolize U statements labels).2, Anchored (symbolize U statements labels).1 r.1 r.2

theorem op_present {read : Asm.Reader} {s : Statement} {pc : Nat} {r : Nat × List Byte}
    (printed : Printed s) (numeric : numericLast U s = true)
    (written : Asm.lineSize read pc s.toLine.statement = .ok r) : (present s.op).isSome = true := by
  cases isOp : s.op with
  | none =>
    obtain ⟨front, last, args, -⟩ := numericLast_last numeric
    rw [printed.bare isOp] at args
    exact absurd args.symm (List.concat_ne_nil last front)
  | some op =>
    cases op with
    | cons c cs => rfl
    | nil =>
      have shape : s.toLine.statement = [] :: s.args.map encode := by
        show (s.op.toList ++ s.args).map encode = _
        rw [isOp]
        rfl
      rw [shape] at written
      cases written

theorem symbolize_placed_iff (labelled : Labelled statements labels)
    (listed : Listed statements labels) (printed : ∀ s ∈ statements, Printed s)
    (follows : Follows U entry statements stop) (assembled : Assembled statements layout bytes)
    (placed : WellPlaced statements stop bytes) :
    WellPlaced (symbolize U statements labels).1 stop bytes ↔ Symbolizable U statements labels := by
  have distinct_iff := symbolize_distinct_iff labelled listed printed follows placed
  have length : ((symbolize U statements labels).1.filterMap Statement.label).length =
      (statements.filter (needsLabel U statements labels)).length +
        (statements.filterMap Statement.label).length := by
    rw [(symbolize_labels labelled listed follows).length_eq, List.length_append, List.length_map]
  constructor
  · intro placed'
    have written := (symbolize_written labelled printed follows placed placed'.distinct).mp
      placed'.written
    refine ⟨⟨layout, bytes, assembled⟩, distinct_iff.mp placed'.distinct, length ▸ placed'.few, ?_⟩
    intro s here r inside named numeric isTarget last isLast
    refine written s here r.pc ⟨?_, numeric, isTarget, ?_⟩ last isLast
    · exact op_present (printed s here) numeric (placed.written s here)
    · exact (mem_generated follows).mpr ⟨named, r, inside, rfl⟩
  · intro good
    have distinct := distinct_iff.mpr good.fresh
    refine ⟨placed.room, symbolize_valid placed, distinct, length.trans_le good.room, placed.length,
      (symbolize_written labelled printed follows placed distinct).mpr ?_⟩
    intro s here v refers last isLast
    obtain ⟨named, r, inside, rfl⟩ := (mem_generated follows).mp refers.made
    exact good.alike s here r inside named refers.numeric refers.target last isLast

/-! ## Printed lines -/

/-- The words of the lines that are printed are read as they are. -/
def Clean (statements : List Statement) : Prop :=
  ∀ item ∈ statements.flatMap Statement.items, Asm.IsItem (encodeLine item)

/-- No line that is printed is longer than the buffer. -/
def Short (statements : List Statement) : Prop :=
  ∀ item ∈ statements.flatMap Statement.items, (Asm.printItem (encodeLine item)).length ≤ 1023

theorem normal_front {front back : Token} (some : front ≠ [])
    (normal : Asm.IsNormal (front ++ back)) : Asm.IsNormal front := by
  refine ⟨⟨some, fun c here => normal.word.letters c (List.mem_append_left _ here)⟩, ?_⟩
  have upper := normal.upper
  unfold Asm.normalize at upper ⊢
  rw [List.map_append] at upper
  exact (List.append_inj upper (List.length_map _)).1

theorem addressName_normal (v : Nat) : Asm.IsNormal (addressName v ++ [':']) := by
  have digits : ∀ c ∈ hex 3 v, Asm.isLetter c = true := by
    intro c here
    obtain ⟨d, small, rfl⟩ := Disas.hex_digits here
    exact (Disas.hexDigit_cases small).1
  refine ⟨⟨by simp, ?_⟩, ?_⟩
  · simp only [addressName, List.forall_mem_append]
    exact ⟨⟨by decide, digits⟩, by decide⟩
  · have same := Disas.normalize_hex 3 v
    unfold addressName Asm.normalize at *
    rw [List.map_append, List.map_append, same]
    rfl

section
variable {made : List Nat} {P : Token → Prop} (generated : ∀ v, P (addressName v))
include generated

theorem labelOf_names {l : Labels} (known : ∀ r ∈ l, P r.1) (v : Nat) :
    P ((labelOf l v).getD (addressName v)) := by
  cases found : labelOf l v with
  | none => exact generated v
  | some name => exact known _ (labelOf_some found)

theorem symbolizeFrom_names {newLabels : Labels} {rest : List Statement}
    (old : ∀ r ∈ labels, P r.1) (new : ∀ r ∈ newLabels, P r.1) :
    ∀ q ∈ (symbolizeFrom U made labels newLabels rest).1, ∃ s ∈ rest,
      q = anchor s ∨ q = s ∨ ∃ name, P name ∧ q = withLast s name ∧ numericLast U s = true := by
  induction rest generalizing newLabels with
  | nil => exact nofun
  | cons s rest ih =>
    obtain ⟨labels', shape, next⟩ := @symbolizeFrom_cons U made labels newLabels s rest
    have new' : ∀ r ∈ labels', P r.1 := by
      rw [next]
      split
      · intro r here
        obtain kept | rfl := mem_assign here
        · exact new r kept
        · show P ((present (labelOf labels s.pc)).getD (addressName s.pc))
          cases found : present (labelOf labels s.pc) with
          | none => exact generated s.pc
          | some name => exact old _ (labelOf_some (Option.filter_eq_some_iff.mp found).1)
      · exact new
    intro q here
    rw [shape] at here
    obtain first | later := List.mem_append.mp here
    · split at first
      · exact ⟨s, List.mem_cons_self, .inl (List.mem_singleton.mp first)⟩
      · cases first
    · obtain rfl | later := List.mem_cons.mp later
      · refine ⟨s, List.mem_cons_self, .inr ?_⟩
        obtain ⟨same, -⟩ | ⟨v, refers, same⟩ := @symbolizeOperand_cases U made labels labels' s
        · exact .inl same
        · exact .inr ⟨_, labelOf_names generated new' v, same, refers.numeric⟩
      · obtain ⟨r, inside, what⟩ := ih new' q later
        exact ⟨r, List.mem_cons_of_mem _ inside, what⟩

end

theorem symbolize_clean (labelled : Labelled statements labels) (clean : Clean statements) :
    Clean (symbolize U statements labels).1 := by
  have normalLabel {s : Statement} (here : s ∈ statements) {name : Token}
      (label : s.label = some name) : Asm.IsNormal (encode name ++ [':']) := by
    have item := clean ⟨some name, []⟩ (List.mem_flatMap.mpr ⟨s, here, List.mem_append_left _ (by
      rw [label]
      exact List.mem_singleton.mpr rfl)⟩)
    cases item with
    | label normal => exact normal
  have generated (v : Nat) : Asm.IsNormal (encode (addressName v)) := by
    rw [encode_addressName]
    exact normal_front (by unfold addressName; simp) (addressName_normal v)
  have old : ∀ r ∈ labels, Asm.IsNormal (encode r.1) := by
    intro r here
    obtain ⟨some, s, inside, label, -⟩ := labelled.labels r here
    exact normal_front (fun empty => some ((encode_eq_ascii (by decide)).mp empty))
      (normalLabel inside label)
  intro item here
  obtain ⟨q, inside, isItem⟩ := List.mem_flatMap.mp here
  -- A statement of the result is a new label, an old statement, or one with a name put in.
  obtain ⟨s, there, rfl | rfl | ⟨name, normal, rfl, numeric⟩⟩ :=
    symbolizeFrom_names (P := fun name => Asm.IsNormal (encode name)) generated old old q inside
  · have only : item = ⟨some (addressName s.pc), []⟩ := List.mem_singleton.mp isItem
    rw [only]
    refine .label ?_
    rw [encode_addressName]
    exact addressName_normal s.pc
  · exact clean item (List.mem_flatMap.mpr ⟨q, there, isItem⟩)
  · obtain ⟨front, last, args, -⟩ := numericLast_last numeric
    obtain label | statement := List.mem_append.mp isItem
    · exact clean item (List.mem_flatMap.mpr ⟨s, there, List.mem_append_left _ label⟩)
    · cases op : s.op with
      | none =>
        rw [labelled.bare s there op] at args
        exact absurd args.symm (List.concat_ne_nil last front)
      | some op' =>
        have was : Asm.IsItem ⟨none, encode op' :: (front.map encode ++ [encode last])⟩ := by
          have item := clean ⟨none, op' :: (front ++ [last])⟩ (List.mem_flatMap.mpr
            ⟨s, there, List.mem_append_right _ (by rw [op, args]; exact List.mem_singleton.mpr rfl)⟩)
          have encoded : encodeLine ⟨none, op' :: (front ++ [last])⟩ =
              ⟨none, encode op' :: (front.map encode ++ [encode last])⟩ := by
            unfold encodeLine
            rw [List.map_cons, List.map_append]
            rfl
          rwa [encoded] at item
        have only : item = ⟨none, op' :: (front ++ [name])⟩ := by
          have shape : (withLast s name).op.toList ++ (withLast s name).args =
              op' :: (front ++ [name]) := by
            show s.op.toList ++ (s.args.dropLast ++ [name]) = _
            rw [op, args, List.dropLast_concat]
            rfl
          dsimp only at statement
          rw [shape] at statement
          exact List.mem_singleton.mp statement
        have encoded : encodeLine item =
            ⟨none, encode op' :: (front.map encode ++ [encode name])⟩ := by
          rw [only]
          unfold encodeLine
          rw [List.map_cons, List.map_append]
          rfl
        rw [encoded]
        cases was with
        | statement normals few noLabel =>
          refine .statement ?_ (by simpa using few) noLabel
          intro w here
          obtain rfl | here := List.mem_cons.mp here
          · exact normals _ List.mem_cons_self
          obtain before | here := List.mem_append.mp here
          · exact normals w (List.mem_cons_of_mem _ (List.mem_append_left _ before))
          · rw [List.mem_singleton.mp here]
            exact normal

theorem assemble_clean (named : ∀ s ∈ statements, s.label ≠ some [])
    (bare : ∀ s ∈ statements, s.op = none → s.args = []) (clean : Clean statements)
    (short : Short statements) :
    Asm.assemble (encode (canonicalize statements)) = .ok bytes ↔
      ∃ layout, Assembled statements layout bytes :=
  assemble_canonical_iff ⟨rfl, named, bare⟩ clean short

theorem symbolize_named (labelled : Labelled statements labels) (listed : Listed statements labels) :
    (∀ s ∈ statements, s.label ≠ some []) ∧
      ∀ q ∈ (symbolize U statements labels).1, q.label ≠ some [] := by
  have old : ∀ s ∈ statements, s.label ≠ some [] := fun s here label =>
    (labelled.labels _ (listed.labels s here [] label)).1 rfl
  refine ⟨old, fun q here => ?_⟩
  obtain ⟨s, -, rfl⟩ | ⟨s, inside, labels', rfl⟩ := symbolizeFrom_mem here
  · exact fun label => nomatch Option.some.inj label
  · rw [(@symbolizeOperand_fields U (generated U statements labels) labels labels' s).2.1]
    exact old s inside

/-- The bytes are the same just if the labels that are put are new, there is room for them, and
the assembler reads the same numbers. -/
theorem symbolize_assembled_iff (parsed : parseSource U text = .ok (statements, labels))
    (noOrg : ∀ s ∈ statements, s.op ≠ some opOrg) :
    (∃ bytes, (∃ layout, Assembled statements layout bytes) ∧
      ∃ layout', Assembled (symbolize U statements labels).1 layout' bytes) ↔
      Symbolizable U statements labels := by
  obtain ⟨stop, follows⟩ := parseSource_follows parsed
  have labelled := parseSource_labelled parsed
  have listed := parseSource_listed parsed
  have printed : ∀ s ∈ statements, Printed s := fun s here => ⟨labelled.bare s here, noOrg s here⟩
  have follows' : Follows U entry (symbolize U statements labels).1 stop :=
    symbolizeFrom_follows follows noOrg
  have printed' := @symbolize_printed U statements labels printed
  have bare' : ∀ q ∈ (symbolize U statements labels).1, q.op = none → q.args = [] :=
    fun q here => (printed' q here).bare
  have noOrg' : ∀ q ∈ (symbolize U statements labels).1, q.op ≠ some opOrg :=
    fun q here => (printed' q here).other
  constructor
  · rintro ⟨bytes, ⟨layout, original⟩, layout', symbolic⟩
    obtain ⟨-, placed⟩ := WellPlaced.of_assembled original follows labelled.bare noOrg
    obtain ⟨-, placed'⟩ := WellPlaced.of_assembled symbolic follows' bare' noOrg'
    exact (symbolize_placed_iff labelled listed printed follows original placed).mp placed'
  · intro good
    obtain ⟨layout, bytes, original⟩ := good.assembles
    obtain ⟨-, placed⟩ := WellPlaced.of_assembled original follows labelled.bare noOrg
    have placed' := (symbolize_placed_iff labelled listed printed follows original placed).mpr good
    exact ⟨bytes, ⟨layout, original⟩, _, placed'.assembled follows' bare' noOrg'⟩

theorem symbolize_defines (parsed : parseSource U text = .ok (statements, labels))
    (assembled : Assembled (symbolize U statements labels).1 layout bytes) :
    ((symbolize U statements labels).1.filterMap Statement.label).Nodup ∧
      ∀ r ∈ (symbolize U statements labels).2,
        Anchored (symbolize U statements labels).1 r.1 r.2 := by
  have distinct := assembled_labels assembled
  have resolved := symbolize_resolved (parseSource_labelled parsed) distinct
  have scope := @symbolizeFrom_scope U _ labels _ labels statements resolved
    ⟨resolved.labelled, fun _ here => here⟩
  exact ⟨distinct, scope.known⟩

/-- Symbolization keeps the bytes if, and only if, the labels that are put are new, there is room
for them, and the assembler reads the same numbers. So it is with the texts, if their lines can
be read as they are printed. -/
theorem symbolize_keeps_iff (parsed : parseSource U text = .ok (statements, labels))
    (noOrg : ∀ s ∈ statements, s.op ≠ some opOrg) :
    (KeepsBytes U statements labels ↔ Symbolizable U statements labels) ∧
      (Clean statements → Short statements → Short (symbolize U statements labels).1 →
        ((∃ bytes, Asm.assemble (encode (canonicalize statements)) = .ok bytes ∧
          Asm.assemble (encode (canonicalize (symbolize U statements labels).1)) = .ok bytes) ↔
        Symbolizable U statements labels)) := by
  have iff := symbolize_assembled_iff parsed noOrg
  have labelled := parseSource_labelled parsed
  obtain ⟨named, named'⟩ := @symbolize_named U statements labels labelled (parseSource_listed parsed)
  have printed' := @symbolize_printed U statements labels fun s here =>
    ⟨labelled.bare s here, noOrg s here⟩
  refine ⟨⟨?_, ?_⟩, fun clean short short' => ?_⟩
  · rintro ⟨layout, layout', bytes, original, symbolic, -⟩
    exact iff.mp ⟨bytes, ⟨layout, original⟩, layout', symbolic⟩
  · intro good
    obtain ⟨bytes, ⟨layout, original⟩, layout', symbolic⟩ := iff.mpr good
    exact ⟨layout, layout', bytes, original, symbolic, symbolize_defines parsed symbolic⟩
  · rw [← iff]
    refine exists_congr fun bytes => and_congr ?_ ?_
    · exact assemble_clean named labelled.bare clean short
    · exact assemble_clean named' (fun q here => (printed' q here).bare)
        (symbolize_clean labelled clean) short'

end

end

/-- A jump to an operand, behind a label. -/
def jumpsTo (label operand : Text) : Text :=
  label ++ ": CLS\nJP ".toList ++ operand ++ "\nCLS".toList

def jumpsToStatements (label operand : Token) : List Statement :=
  [⟨1, some label, some "CLS".toList, [], 0x200, 2⟩,
    ⟨2, none, some "JP".toList, [operand], 0x202, 2⟩,
    ⟨3, none, some "CLS".toList, [], 0x204, 2⟩]

/-- A new label for a number both read alike. -/
theorem symbolize_keeps_new :
    parseSource ascii (jumpsTo "L".toList "0x204".toList) =
        .ok (jumpsToStatements "L".toList "0X204".toList, [("L".toList, 0x200)]) ∧
      KeepsBytes ascii (jumpsToStatements "L".toList "0X204".toList) [("L".toList, 0x200)] := by
  have parsed : parseSource ascii (jumpsTo "L".toList "0x204".toList) =
      .ok (jumpsToStatements "L".toList "0X204".toList, [("L".toList, 0x200)]) := by
    decide +kernel
  have original : Assembled (jumpsToStatements "L".toList "0X204".toList) ⟨[⟨['L'], 0x200⟩], 0x206⟩
      [0x00, 0xe0, 0x12, 0x04, 0x00, 0xe0] :=
    ⟨by decide +kernel, ⟨0x206, _⟩, by decide +kernel, rfl⟩
  have numbers : ∀ s ∈ jumpsToStatements "L".toList "0X204".toList,
      ∀ r ∈ jumpsToStatements "L".toList "0X204".toList,
        target ascii [("L".toList, 0x200)] s = some (r.pc : Int) →
        ∀ last ∈ s.args.getLast?.toList, Asm.strtoul (encode last) = some r.pc := by
    decide +kernel
  exact ⟨parsed, (symbolize_keeps_iff parsed (by decide +kernel)).1.mpr
    ⟨⟨_, _, original⟩, by decide +kernel, by decide +kernel,
      fun s here r inside _ _ isTarget last isLast =>
        numbers s here r inside isTarget last (Option.mem_toList.mpr isLast)⟩⟩

/-- A label of the source has the name that is made for another address; or the assembler reads
an address as another number. -/
theorem symbolize_keeps_not :
    (Asm.assemble (encode (jumpsTo "ADDR204".toList "0x204".toList)) =
        .ok [0x00, 0xe0, 0x12, 0x04, 0x00, 0xe0] ∧
      parseSource ascii (jumpsTo "ADDR204".toList "0x204".toList) =
        .ok (jumpsToStatements "ADDR204".toList "0X204".toList, [("ADDR204".toList, 0x200)]) ∧
      Asm.assemble (encode (canonicalize (jumpsToStatements "ADDR204".toList "0X204".toList))) =
        .ok [0x00, 0xe0, 0x12, 0x04, 0x00, 0xe0] ∧
      Asm.assemble (encode (canonicalize (symbolize ascii
        (jumpsToStatements "ADDR204".toList "0X204".toList) [("ADDR204".toList, 0x200)]).1)) =
        .error ⟨4, .duplicateLabel "ADDR204".toList⟩ ∧
      ¬ KeepsBytes ascii (jumpsToStatements "ADDR204".toList "0X204".toList)
        [("ADDR204".toList, 0x200)]) ∧
    (Asm.assemble (encode (jumpsTo "L".toList "+0512".toList)) =
        .ok [0x00, 0xe0, 0x11, 0x4a, 0x00, 0xe0] ∧
      parseSource ascii (jumpsTo "L".toList "+0512".toList) =
        .ok (jumpsToStatements "L".toList "+0512".toList, [("L".toList, 0x200)]) ∧
      Asm.assemble (encode (canonicalize (jumpsToStatements "L".toList "+0512".toList))) =
        .ok [0x00, 0xe0, 0x11, 0x4a, 0x00, 0xe0] ∧
      Asm.assemble (encode (canonicalize (symbolize ascii
        (jumpsToStatements "L".toList "+0512".toList) [("L".toList, 0x200)]).1)) =
        .ok [0x00, 0xe0, 0x12, 0x00, 0x00, 0xe0]) := by
  refine ⟨⟨by decide +kernel, by decide +kernel, by decide +kernel, by decide +kernel, ?_⟩,
    by decide +kernel, by decide +kernel, by decide +kernel, by decide +kernel⟩
  rintro ⟨_, _, _, _, _, distinct, _⟩
  exact absurd distinct (by decide +kernel)

end ChipEight.Opt
