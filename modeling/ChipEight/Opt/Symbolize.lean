import ChipEight.Opt.Peephole
import ChipEight.Opt.Program

/-! What `symbolize_in_rom_addresses` makes of statements.

Every statement is copied; the last operand of a copy may have become a label, and before
some copies a label is put. Where no label is defined twice in the result, the label in the
place of an address is the label of a statement at that address.
-/

set_option autoImplicit false

namespace ChipEight.Opt

open Asm (Text Token Mnemonic wordI wordK)

/-- A statement has the label and the address. -/
def Anchored (program : List Statement) (name : Token) (pc : Nat) : Prop :=
  ∃ s ∈ program, s.label = some name ∧ s.pc = pc

section
variable {U : Unicode} {made : List Nat} {labels : Labels}

/-- The last operand of a statement is a number, and the address of a statement that is
referred to. -/
structure Refers (U : Unicode) (made : List Nat) (labels : Labels) (s : Statement) (v : Nat) :
    Prop where
  op : (present s.op).isSome = true
  numeric : numericLast U s = true
  target : target U labels s = some (v : Int)
  made : v ∈ made

theorem Refers.unique {s : Statement} {v w : Nat} (first : Refers U made labels s v)
    (second : Refers U made labels s w) : v = w := by
  have same := first.target.symm.trans second.target
  simpa using same

theorem numericLast_last {s : Statement} (numeric : numericLast U s = true) :
    ∃ front last, s.args = front ++ [last] ∧ (parseNumber U last).isSome = true := by
  obtain empty | ⟨front, last, args⟩ := List.eq_nil_or_concat' s.args
  · unfold numericLast at numeric
    rw [empty] at numeric
    cases numeric
  · unfold numericLast at numeric
    rw [args, List.getLast?_concat] at numeric
    exact ⟨front, last, args, numeric⟩

/-- The label before a statement that is referred to. -/
def anchor (s : Statement) : Statement := ⟨s.line, some (addressName s.pc), none, [], s.pc, 0⟩

theorem symbolizeOperand_cases (newLabels : Labels) (s : Statement) :
    (symbolizeOperand U made labels newLabels s = s ∧ ∀ v, ¬ Refers U made labels s v) ∨
      ∃ v, Refers U made labels s v ∧ symbolizeOperand U made labels newLabels s =
        withLast s ((labelOf newLabels v).getD (addressName v)) := by
  unfold symbolizeOperand
  by_cases words : ((present s.op).isSome && numericLast U s) = true
  · rw [if_pos words]
    obtain ⟨op, numeric⟩ := Bool.and_eq_true_iff.mp words
    cases found : target U labels s with
    | none => exact .inl ⟨rfl, fun v refers => nomatch found.symm.trans refers.target⟩
    | some value =>
      dsimp only
      split
      · rename_i inside
        simp only [Bool.and_eq_true, decide_eq_true_eq, List.contains_iff_mem] at inside
        have whole : ((value.toNat : Nat) : Int) = value := Int.toNat_of_nonneg inside.1
        exact .inr ⟨value.toNat, ⟨op, numeric, whole.symm ▸ found, inside.2⟩, rfl⟩
      · rename_i outside
        refine .inl ⟨rfl, fun v refers => outside ?_⟩
        have same : value = v := Option.some.inj (found.symm.trans refers.target)
        subst same
        simpa using refers.made
  · rw [if_neg words]
    exact .inl ⟨rfl, fun v refers => words (by rw [refers.op, refers.numeric]; rfl)⟩

theorem symbolizeOperand_fields (newLabels : Labels) (s : Statement) :
    (symbolizeOperand U made labels newLabels s).line = s.line ∧
      (symbolizeOperand U made labels newLabels s).label = s.label ∧
      (symbolizeOperand U made labels newLabels s).op = s.op ∧
      (symbolizeOperand U made labels newLabels s).pc = s.pc ∧
      (symbolizeOperand U made labels newLabels s).size = s.size ∧
      (symbolizeOperand U made labels newLabels s).args.length = s.args.length := by
  obtain ⟨same, -⟩ | ⟨v, refers, same⟩ := @symbolizeOperand_cases U made labels newLabels s
  · rw [same]
    exact ⟨rfl, rfl, rfl, rfl, rfl, rfl⟩
  · obtain ⟨front, last, args, -⟩ := numericLast_last refers.numeric
    have some : s.args ≠ [] := args ▸ List.concat_ne_nil last front
    rw [same]
    refine ⟨rfl, rfl, rfl, rfl, rfl, ?_⟩
    have positive := List.length_pos_iff.mpr some
    show (s.args.dropLast ++ [_]).length = _
    rw [List.length_append, List.length_dropLast, List.length_singleton]
    omega

theorem symbolizeFrom_cons (newLabels : Labels) (s : Statement) (rest : List Statement) :
    ∃ labels', (symbolizeFrom U made labels newLabels (s :: rest)).1 =
        (if made.contains s.pc && (present (labelOf labels s.pc)).isNone then [anchor s] else []) ++
          symbolizeOperand U made labels labels' s :: (symbolizeFrom U made labels labels' rest).1 ∧
      labels' = if made.contains s.pc then
        assign newLabels ((present (labelOf labels s.pc)).getD (addressName s.pc)) s.pc
      else newLabels := by
  refine ⟨_, ?_, rfl⟩
  rw [symbolizeFrom]
  split
  · rename_i inserted
    have none := (Bool.and_eq_true_iff.mp inserted).2
    rw [Option.isNone_iff_eq_none.mp none]
    rfl
  · rfl

theorem symbolizeFrom_copy {newLabels : Labels} {statements : List Statement} {s : Statement}
    (here : s ∈ statements) :
    ∃ labels', symbolizeOperand U made labels labels' s ∈
      (symbolizeFrom U made labels newLabels statements).1 := by
  induction statements generalizing newLabels with
  | nil => cases here
  | cons r rest ih =>
    obtain ⟨labels', shape, -⟩ := @symbolizeFrom_cons U made labels newLabels r rest
    rw [shape]
    obtain rfl | later := List.mem_cons.mp here
    · exact ⟨labels', List.mem_append_right _ List.mem_cons_self⟩
    · obtain ⟨labels'', inside⟩ := @ih labels' later
      exact ⟨labels'', List.mem_append_right _ (List.mem_cons_of_mem _ inside)⟩

theorem symbolizeFrom_anchor {newLabels : Labels} {statements : List Statement} {s : Statement}
    (here : s ∈ statements) (named : s.pc ∈ made) (new : present (labelOf labels s.pc) = none) :
    anchor s ∈ (symbolizeFrom U made labels newLabels statements).1 := by
  induction statements generalizing newLabels with
  | nil => cases here
  | cons r rest ih =>
    obtain ⟨labels', shape, -⟩ := @symbolizeFrom_cons U made labels newLabels r rest
    rw [shape]
    obtain rfl | later := List.mem_cons.mp here
    · apply List.mem_append_left
      rw [new, List.contains_iff_mem.mpr named, Option.isNone_none, Bool.and_self, if_pos rfl]
      exact List.mem_singleton.mpr rfl
    · exact List.mem_append_right _ (List.mem_cons_of_mem _ (ih later))

theorem symbolizeFrom_mem {newLabels : Labels} {statements : List Statement} {r : Statement}
    (here : r ∈ (symbolizeFrom U made labels newLabels statements).1) :
    (∃ s ∈ statements, r = anchor s) ∨
      ∃ s ∈ statements, ∃ labels', r = symbolizeOperand U made labels labels' s := by
  induction statements generalizing newLabels with
  | nil => cases here
  | cons s rest ih =>
    obtain ⟨labels', shape, -⟩ := @symbolizeFrom_cons U made labels newLabels s rest
    rw [shape] at here
    obtain first | later := List.mem_append.mp here
    · split at first
      · exact .inl ⟨s, List.mem_cons_self, List.mem_singleton.mp first⟩
      · cases first
    · obtain rfl | later := List.mem_cons.mp later
      · exact .inr ⟨s, List.mem_cons_self, labels', rfl⟩
      · exact (ih later).imp (fun ⟨s', inside, same⟩ => ⟨s', List.mem_cons_of_mem _ inside, same⟩)
          fun ⟨s', inside, same⟩ => ⟨s', List.mem_cons_of_mem _ inside, same⟩

/-! ## Layout -/

theorem sizeOf_length {lineNo pc : Nat} {op : Option Token} {args args' : List Token}
    (other : op ≠ some opOrg) (length : args'.length = args.length) :
    sizeOf U lineNo pc op args' = sizeOf U lineNo pc op args := by
  unfold sizeOf
  cases op with
  | none => rfl
  | some op =>
    dsimp only
    rw [if_neg fun same => other (congrArg _ (beq_iff_eq.mp same)),
      if_neg fun same => other (congrArg _ (beq_iff_eq.mp same)), length]

theorem symbolizeFrom_follows {newLabels : Labels} {start stop : Nat} {statements : List Statement}
    (follows : Follows U start statements stop)
    (noOrg : ∀ s ∈ statements, s.op ≠ some opOrg) :
    Follows U start (symbolizeFrom U made labels newLabels statements).1 stop := by
  induction follows generalizing newLabels with
  | nil => exact .nil
  | @cons s rest stop sized _ ih =>
    obtain ⟨labels', shape, -⟩ := @symbolizeFrom_cons U made labels newLabels s rest
    rw [shape]
    obtain ⟨line, -, op, pc, size, length⟩ := @symbolizeOperand_fields U made labels labels' s
    have later := @ih labels' fun s' inside => noOrg s' (List.mem_cons_of_mem _ inside)
    rw [← pc, ← size] at later
    have copied := Follows.cons (by
      rw [line, op, pc, size, sizeOf_length (noOrg s List.mem_cons_self) length]
      exact sized) later
    rw [pc] at copied
    split
    · exact @Follows.cons U (anchor s) _ _ rfl copied
    · exact copied

/-! ## Operands -/

/-- What a statement becomes in the result: the same, or one that names the label at the
address it refers to. -/
inductive Copy (U : Unicode) (made : List Nat) (labels : Labels) (program : List Statement)
    (s : Statement) : Statement → Prop where
  | same (none : ∀ v, ¬ Refers U made labels s v) : Copy U made labels program s s
  | renamed {v : Nat} {name : Token} (refers : Refers U made labels s v)
      (anchored : Anchored program name v) : Copy U made labels program s (withLast s name)

theorem labelOf_some {l : Labels} {name : Token} {v : Nat} (found : labelOf l v = some name) :
    (name, v) ∈ l := by
  obtain ⟨r, isFirst, rfl⟩ := Option.map_eq_some_iff.mp found
  have address : r.2 = v :=
    beq_iff_eq.mp (@List.find?_some _ (fun r : Token × Nat => r.2 == v) _ _ isFirst)
  rw [← address]
  exact List.mem_of_find?_eq_some isFirst

theorem labelOf_none {l : Labels} {name : Token} {v : Nat} (missing : labelOf l v = none) :
    (name, v) ∉ l := by
  intro here
  have none := Option.map_eq_none_iff.mp missing
  have other := List.find?_eq_none.mp none _ here
  exact other (beq_self_eq_true v)

theorem mem_assign {l : Labels} {name : Token} {v : Nat} {r : Token × Nat}
    (here : r ∈ assign l name v) : r ∈ l ∨ r = (name, v) := by
  unfold assign at here
  split at here
  · obtain ⟨q, inside, same⟩ := List.mem_map.mp here
    split at same
    · exact .inr same.symm
    · exact .inl (same ▸ inside)
  · obtain old | new := List.mem_append.mp here
    · exact .inl old
    · exact .inr (List.mem_singleton.mp new)

theorem assign_keeps {l : Labels} {name : Token} {v : Nat} {r : Token × Nat} (here : r ∈ l)
    (apart : r.1 = name → r.2 = v) : r ∈ assign l name v := by
  unfold assign
  split
  · refine List.mem_map.mpr ⟨r, here, ?_⟩
    split
    · rename_i same
      have first := beq_iff_eq.mp same
      exact Prod.ext first.symm (apart first).symm
    · rfl
  · exact List.mem_append_left _ here

theorem assign_self (l : Labels) (name : Token) (v : Nat) : (name, v) ∈ assign l name v := by
  unfold assign
  split
  · rename_i known
    obtain ⟨w, found⟩ := Option.isSome_iff_exists.mp known
    obtain ⟨before, after, split, -⟩ := List.lookup_eq_some_iff.mp found
    refine List.mem_map.mpr ⟨(name, w), split ▸ by simp, ?_⟩
    exact if_pos (beq_self_eq_true name)
  · exact List.mem_append_right _ List.mem_cons_self

/-- The labels of the loop: those of statements, and never fewer than at first. -/
structure Scope (labels : Labels) (program : List Statement) (newLabels : Labels) : Prop where
  known : ∀ r ∈ newLabels, Anchored program r.1 r.2
  base : ∀ r ∈ labels, r ∈ newLabels

/-- What is known of the result where no label is defined twice. -/
structure Resolved (made : List Nat) (labels : Labels) (program : List Statement) : Prop where
  unique : ∀ name v w, Anchored program name v → Anchored program name w → v = w
  named : ∀ r ∈ labels, r.1 ≠ []
  labelled : ∀ r ∈ labels, Anchored program r.1 r.2
  made : ∀ v ∈ made, present (labelOf labels v) = none → Anchored program (addressName v) v

variable {program : List Statement} {newLabels : Labels}

theorem Resolved.present (resolved : Resolved made labels program) (v : Nat) :
    present (labelOf labels v) = labelOf labels v := by
  cases found : labelOf labels v with
  | none => rfl
  | some name =>
    have some := resolved.named _ (labelOf_some found)
    cases name with
    | nil => exact absurd rfl some
    | cons c cs => rfl

theorem Scope.assign (names : Scope labels program newLabels)
    (resolved : Resolved made labels program) {name : Token} {v : Nat}
    (anchored : Anchored program name v) : Scope labels program (assign newLabels name v) where
  known r here := by
    obtain old | rfl := mem_assign here
    · exact names.known r old
    · exact anchored
  base r here := by
    refine assign_keeps (names.base r here) fun same => ?_
    exact resolved.unique name r.2 v (same ▸ resolved.labelled r here) anchored

theorem Scope.step (names : Scope labels program newLabels)
    (resolved : Resolved made labels program) (s : Statement) :
    Scope labels program (if made.contains s.pc then
      Opt.assign newLabels ((Opt.present (labelOf labels s.pc)).getD (addressName s.pc)) s.pc
    else newLabels) := by
  split
  · rename_i named
    refine names.assign resolved ?_
    have address : s.pc ∈ made := List.contains_iff_mem.mp named
    rw [resolved.present]
    cases found : labelOf labels s.pc with
    | some name => exact resolved.labelled _ (labelOf_some found)
    | none => exact resolved.made _ address (by rw [found]; rfl)
  · exact names

theorem symbolizeFrom_scope {newLabels : Labels} {statements : List Statement}
    (resolved : Resolved made labels program) (names : Scope labels program newLabels) :
    Scope labels program (symbolizeFrom U made labels newLabels statements).2 := by
  induction statements generalizing newLabels with
  | nil => exact names
  | cons s rest ih =>
    have later := ih (names.step resolved s)
    rw [symbolizeFrom]
    split
    · exact later
    · exact later

theorem symbolizeFrom_grows {newLabels : Labels} {statements : List Statement}
    (resolved : Resolved made labels program) (names : Scope labels program newLabels)
    {r : Token × Nat} (here : r ∈ newLabels) :
    r ∈ (symbolizeFrom U made labels newLabels statements).2 := by
  induction statements generalizing newLabels with
  | nil => exact here
  | cons s rest ih =>
    have names' := names.step resolved s
    have later := @ih _ names' <| by
      split
      · rename_i named
        refine assign_keeps here fun same => ?_
        rw [if_pos named] at names'
        have anchored := names'.known _ (assign_self ..)
        exact resolved.unique _ _ _ (names.known r here) (same ▸ anchored)
      · exact here
    rw [symbolizeFrom]
    split
    · exact later
    · exact later

theorem symbolizeFrom_listed {newLabels : Labels} {statements : List Statement}
    (resolved : Resolved made labels program) (names : Scope labels program newLabels)
    (listed : ∀ s ∈ statements, ∀ name, s.label = some name → (name, s.pc) ∈ labels)
    {q : Statement} (here : q ∈ (symbolizeFrom U made labels newLabels statements).1) {name : Token}
    (label : q.label = some name) :
    (name, q.pc) ∈ (symbolizeFrom U made labels newLabels statements).2 := by
  induction statements generalizing newLabels with
  | nil => cases here
  | cons s rest ih =>
    obtain ⟨labels', shape, next⟩ := @symbolizeFrom_cons U made labels newLabels s rest
    have same : (symbolizeFrom U made labels newLabels (s :: rest)).2 =
        (symbolizeFrom U made labels labels' rest).2 := by
      rw [symbolizeFrom, next]
      split <;> rfl
    have names' : Scope labels program labels' := next ▸ names.step resolved s
    rw [shape] at here
    rw [same]
    obtain first | here := List.mem_append.mp here
    · split at first
      · rename_i inserted
        obtain ⟨named, none⟩ := Bool.and_eq_true_iff.mp inserted
        rw [List.mem_singleton.mp first] at label ⊢
        refine symbolizeFrom_grows resolved names' ?_
        rw [next, if_pos named, Option.isNone_iff_eq_none.mp none, ← Option.some.inj label]
        exact assign_self ..
      · cases first
    · obtain rfl | later := List.mem_cons.mp here
      · obtain ⟨-, sameLabel, -, samePc, -⟩ := @symbolizeOperand_fields U made labels labels' s
        rw [sameLabel] at label
        rw [samePc]
        exact symbolizeFrom_grows resolved names'
          (names'.base _ (listed s List.mem_cons_self name label))
      · exact ih names' (fun s' inside => listed s' (List.mem_cons_of_mem _ inside)) later

theorem Scope.anchored (names : Scope labels program newLabels)
    (resolved : Resolved made labels program) {v : Nat} (here : v ∈ made) :
    Anchored program ((labelOf newLabels v).getD (addressName v)) v := by
  cases found : labelOf newLabels v with
  | some name => exact names.known _ (labelOf_some found)
  | none =>
    cases old : labelOf labels v with
    | none => exact resolved.made v here (by rw [old]; rfl)
    | some name => exact absurd (names.base _ (labelOf_some old)) (labelOf_none found)

theorem symbolizeOperand_copy {newLabels : Labels} (names : Scope labels program newLabels)
    (resolved : Resolved made labels program) (s : Statement) :
    Copy U made labels program s (symbolizeOperand U made labels newLabels s) := by
  obtain ⟨same, none⟩ | ⟨v, refers, same⟩ := @symbolizeOperand_cases U made labels newLabels s
  · rw [same]
    exact .same none
  · rw [same]
    exact .renamed refers (names.anchored resolved refers.made)

theorem symbolizeFrom_copies {newLabels : Labels} {statements : List Statement}
    (resolved : Resolved made labels program) (names : Scope labels program newLabels)
    {p : Option Token → Bool} (words : p none = false) :
    List.Forall₂ (Copy U made labels program) (statements.filter fun s => p s.op)
      ((symbolizeFrom U made labels newLabels statements).1.filter fun s => p s.op) := by
  induction statements generalizing newLabels with
  | nil => exact .nil
  | cons s rest ih =>
    obtain ⟨labels', shape, next⟩ := @symbolizeFrom_cons U made labels newLabels s rest
    rw [shape]
    have names' : Scope labels program labels' := next ▸ names.step resolved s
    have later := ih names'
    have copy := @symbolizeOperand_copy U _ _ _ _ names' resolved s
    have op := (@symbolizeOperand_fields U made labels labels' s).2.2.1
    have silent : List.filter (fun s => p s.op)
        (if made.contains s.pc && (present (labelOf labels s.pc)).isNone then [anchor s] else []) =
        [] := by
      split
      · exact List.filter_eq_nil_iff.mpr fun r here => by
          rw [List.mem_singleton.mp here]
          show ¬ p none = true
          rw [words]
          exact Bool.false_ne_true
      · rfl
    rw [List.filter_append, silent, List.nil_append, List.filter_cons, List.filter_cons, op]
    split
    · exact .cons copy later
    · exact later

end

/-! ## Parsed programs -/

section
variable {U : Unicode} {text : Text} {statements : List Statement} {labels : Labels}

/-- The labels are those of statements, and a statement without an operation has no operands. -/
structure Labelled (statements : List Statement) (labels : Labels) : Prop where
  labels : ∀ r ∈ labels, r.1 ≠ [] ∧ Anchored statements r.1 r.2
  bare : ∀ s ∈ statements, s.op = none → s.args = []

theorem Anchored.append {before : List Statement} (after : List Statement) {name : Token} {pc : Nat}
    (anchored : Anchored before name pc) : Anchored (before ++ after) name pc := by
  obtain ⟨s, here, label, address⟩ := anchored
  exact ⟨s, List.mem_append_left _ here, label, address⟩

theorem parseLine_labelled {st st' : Parsed} {numbered : Nat × Text}
    (labelled : Labelled st.statements st.labels) (parsed : parseLine U st numbered = .ok st') :
    Labelled st'.statements st'.labels := by
  unfold parseLine at parsed
  dsimp only at parsed
  split at parsed
  · cases parsed
    exact labelled
  · obtain ⟨labels, added, parsed⟩ := Asm.bind_ok.mp parsed
    obtain ⟨size, -, parsed⟩ := Asm.bind_ok.mp parsed
    split at parsed
    · cases parsed
    · cases parsed
      constructor
      · intro r here
        unfold addLabel at added
        split at added
        · cases added
          obtain ⟨some, anchored⟩ := labelled.labels r here
          exact ⟨some, anchored.append _⟩
        · rename_i label isLabel
          split at added
          · cases added
          · rename_i some
            split at added
            · cases added
            · cases added
              obtain old | new := List.mem_append.mp here
              · obtain ⟨some, anchored⟩ := labelled.labels r old
                exact ⟨some, anchored.append _⟩
              · rw [List.mem_singleton.mp new]
                exact ⟨fun empty => some (List.isEmpty_iff.mpr empty), _,
                  List.mem_append_right _ (List.mem_singleton.mpr rfl), isLabel, rfl⟩
      · intro s here none
        obtain old | new := List.mem_append.mp here
        · exact labelled.bare s old none
        · rw [List.mem_singleton.mp new] at none ⊢
          have empty := List.head?_eq_none_iff.mp (Option.map_eq_none_iff.mp none)
          show (splitLabel U (tokens numbered.2)).2.tail.map (upper U) = []
          rw [empty]
          rfl

theorem parseSource_keeps {P : List Statement → Labels → Prop} (start : P [] [])
    (step : ∀ st st' numbered, P st.statements st.labels → parseLine U st numbered = .ok st' →
      P st'.statements st'.labels)
    (parsed : parseSource U text = .ok (statements, labels)) : P statements labels := by
  obtain ⟨st, folded, same⟩ := Asm.bind_ok.mp parsed
  cases same
  revert folded
  generalize (splitlines text).zipIdx.map (fun r => (r.2 + 1, r.1)) = numbered
  suffices all : ∀ st₀ : Parsed, P st₀.statements st₀.labels →
      numbered.foldlM (parseLine U) st₀ = .ok st → P st.statements st.labels from
    all ⟨[], [], entry⟩ start
  induction numbered with
  | nil =>
    intro st₀ kept folded
    cases folded
    exact kept
  | cons r rest ih =>
    intro st₀ kept folded
    rw [List.foldlM_cons] at folded
    obtain ⟨st₁, first, folded⟩ := Asm.bind_ok.mp folded
    exact ih st₁ (step st₀ st₁ r kept first) folded

theorem parseSource_labelled (parsed : parseSource U text = .ok (statements, labels)) :
    Labelled statements labels :=
  parseSource_keeps ⟨nofun, nofun⟩ (fun _ _ _ => parseLine_labelled) parsed

theorem generated_statement {v : Nat} (here : v ∈ generated U statements labels) :
    ∃ s ∈ statements, s.pc = v := by
  obtain ⟨s, -, found⟩ := List.mem_filterMap.mp here
  unfold numericReference at found
  split at found
  · split at found
    · cases found
    · split at found
      · rename_i value target inside
        cases found
        simp only [Bool.and_eq_true, decide_eq_true_eq, List.any_eq_true] at inside
        obtain ⟨-, r, isStatement, same⟩ := inside
        refine ⟨r, isStatement, ?_⟩
        have equal : (r.pc : Int) = value := beq_iff_eq.mp same
        omega
      · cases found
  · cases found

theorem symbolize_resolved (labelled : Labelled statements labels)
    (distinct : ((symbolize U statements labels).1.filterMap Statement.label).Nodup) :
    Resolved (generated U statements labels) labels (symbolize U statements labels).1 where
  unique name v w := by
    rintro ⟨r, here, label, rfl⟩ ⟨r', here', label', rfl⟩
    have symm : Std.Symm fun s t : Statement =>
        ∀ l, s.label = some l → ∀ l', t.label = some l' → l ≠ l' :=
      ⟨fun s t apart l isL l' isL' => (apart l' isL' l isL).symm⟩
    have apart := List.pairwise_filterMap.mp distinct
    by_contra other
    exact apart.forall here here' (fun same => other (congrArg Statement.pc same)) name label name
      label' rfl
  named r here := (labelled.labels r here).1
  labelled r here := by
    obtain ⟨-, s, inside, label, address⟩ := labelled.labels r here
    obtain ⟨labels', copied⟩ := @symbolizeFrom_copy U (generated U statements labels) labels labels
      statements s inside
    obtain ⟨-, sameLabel, -, samePc, -⟩ :=
      @symbolizeOperand_fields U (generated U statements labels) labels labels' s
    exact ⟨_, copied, sameLabel.trans label, samePc.trans address⟩
  made v here new := by
    obtain ⟨s, inside, rfl⟩ := generated_statement here
    exact ⟨_, symbolizeFrom_anchor inside here new, rfl, rfl⟩

end

end ChipEight.Opt
