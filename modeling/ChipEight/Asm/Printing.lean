import ChipEight.Asm.Items

/-! Printed words are read back.

The disassembler and the optimizer print a statement alike: indented, its operands
separated by a comma and a blank. What is proved here of such a line is all either needs.
-/

set_option autoImplicit false

namespace ChipEight.Asm

/-- Operands, each with the blank in front of it. -/
def spaced : List Token → Text
  | [] => []
  | [w] => ' ' :: w
  | w :: w' :: rest => ' ' :: w ++ ',' :: spaced (w' :: rest)

def indentation : Text := List.replicate 8 ' '

/-- A statement line without its newline. -/
def printStatement (ws : List Token) : Text :=
  match ws with
  | [] => []
  | op :: args => indentation ++ op ++ spaced args

/-- A label line without its newline. -/
def printLabel (name : Token) : Text := name ++ [':']

/-- What may stand behind the last word of a line. -/
def Closes (rest : Text) : Prop :=
  rest = [] ∨ ∃ c cs, rest = c :: cs ∧ (isBlank c || isComment c) = true ∧ words [] cs = []

theorem words_last {w : Token} (word : IsWord w) {rest : Text} (closes : Closes rest) :
    words [] (w ++ rest) = [w] := by
  obtain rfl | ⟨c, cs, rfl, ends, nothing⟩ := closes
  · have some : w.isEmpty = false := List.isEmpty_eq_false_iff.mpr word.nonempty
    rw [words_begin word, words]
    simp only [some, Bool.false_eq_true, if_false]
  · rw [words_word word ends, nothing]

theorem words_closes {rest : Text} (closes : Closes rest) : words [] rest = [] := by
  obtain rfl | ⟨c, cs, rfl, ends, nothing⟩ := closes
  · rfl
  · obtain blank | comment := Bool.or_eq_true_iff.mp ends
    · rw [words_blank blank, nothing]
    · exact words_comment comment cs

theorem words_spaced {ws : List Token} (clean : ∀ w ∈ ws, IsWord w) {rest : Text}
    (closes : Closes rest) : words [] (spaced ws ++ rest) = ws := by
  induction ws with
  | nil => exact words_closes closes
  | cons w ws ih =>
    have word := clean w List.mem_cons_self
    have later := ih fun v inside => clean v (List.mem_cons_of_mem w inside)
    cases ws with
    | nil =>
      show words [] (' ' :: (w ++ rest)) = [w]
      rw [words_blank rfl, words_last word closes]
    | cons w' ws =>
      have shape : spaced (w :: w' :: ws) ++ rest =
          ' ' :: (w ++ ',' :: (spaced (w' :: ws) ++ rest)) := by
        simp [spaced]
      rw [shape, words_blank rfl, words_word word rfl, later]

theorem words_statement {op : Token} {args : List Token} (word : IsWord op)
    (clean : ∀ w ∈ args, IsWord w) {rest : Text} (closes : Closes rest) :
    words [] (op ++ (spaced args ++ rest)) = op :: args := by
  have behind := words_spaced clean closes
  cases args with
  | nil => exact words_last word closes
  | cons w args =>
    have shape : ∃ tail, spaced (w :: args) ++ rest = ' ' :: tail := by
      cases args with
      | nil => exact ⟨w ++ rest, rfl⟩
      | cons w' args => exact ⟨w ++ ',' :: spaced (w' :: args) ++ rest, by simp [spaced]⟩
    obtain ⟨tail, same⟩ := shape
    rw [same] at behind ⊢
    rw [words_blank rfl] at behind
    rw [words_word word rfl, behind]

theorem words_indented (line : Text) : words [] (indentation ++ line) = words [] line := by
  show words [] (' ' :: ' ' :: ' ' :: ' ' :: ' ' :: ' ' :: ' ' :: ' ' :: line) = _
  simp only [words_blank (show isBlank ' ' = true from rfl)]

theorem not_mem_spaced {ws : List Token} (clean : ∀ w ∈ ws, IsWord w) {c : Char}
    (other : isLetter c = false) (notBlank : c ≠ ' ') (notComma : c ≠ ',') : c ∉ spaced ws := by
  have letters {w : Token} (word : IsWord w) : c ∉ w := by
    intro here
    rw [word.letters c here] at other
    cases other
  induction ws with
  | nil => exact List.not_mem_nil
  | cons w ws ih =>
    have first := letters (clean w List.mem_cons_self)
    have later := ih fun v inside => clean v (List.mem_cons_of_mem w inside)
    cases ws with
    | nil =>
      intro here
      obtain blank | here := List.mem_cons.mp here
      · exact notBlank blank
      · exact first here
    | cons w' ws =>
      intro here
      unfold spaced at here
      simp only [List.cons_append, List.mem_cons, List.mem_append] at here
      obtain blank | here | comma | here := here
      · exact notBlank blank
      · exact first here
      · exact notComma comma
      · exact later here

theorem not_mem_printStatement {ws : List Token} (clean : ∀ w ∈ ws, IsWord w) {c : Char}
    (other : isLetter c = false) (notBlank : c ≠ ' ') (notComma : c ≠ ',') :
    c ∉ printStatement ws := by
  cases ws with
  | nil => exact List.not_mem_nil
  | cons op args =>
    intro here
    simp only [printStatement, List.mem_append] at here
    obtain (blank | inOp) | inArgs := here
    · exact notBlank (List.eq_of_mem_replicate blank)
    · have letter := (clean op List.mem_cons_self).letters c inOp
      rw [other] at letter
      cases letter
    · have clean' : ∀ w ∈ args, IsWord w := fun w inside => clean w (List.mem_cons_of_mem op inside)
      exact not_mem_spaced clean' other notBlank notComma inArgs

theorem readLine_statement {op : Token} {args : List Token} (word : IsWord op)
    (clean : ∀ w ∈ args, IsWord w) (few : args.length < maxTokens)
    (noLabel : op.getLast? ≠ some ':') {rest : Text} (closes : Closes rest)
    (noNul : '\x00' ∉ rest) :
    readLine (printStatement (op :: args) ++ rest) =
      .ok ⟨none, (op :: args).map normalize⟩ := by
  have whole : '\x00' ∉ printStatement (op :: args) ++ rest := by
    have each : ∀ w ∈ op :: args, IsWord w := by
      intro w inside
      obtain rfl | later := List.mem_cons.mp inside
      · exact word
      · exact clean w later
    intro here
    obtain inStatement | inRest := List.mem_append.mp here
    · exact not_mem_printStatement each (by decide) (by decide) (by decide) inStatement
    · exact noNul inRest
  have read : words [] (printStatement (op :: args) ++ rest) = op :: args := by
    unfold printStatement
    rw [List.append_assoc, List.append_assoc, words_indented]
    exact words_statement word clean closes
  have kept : ((normalize op).getLast? == some ':') = false :=
    beq_false_of_ne fun label => noLabel ((normalize_label op).mp label)
  have fits : ¬ (op :: args).length > maxTokens := Nat.not_lt.mpr few
  unfold readLine tokenize
  rw [cString_clean whole, read]
  dsimp only
  rw [if_neg fits]
  show (Except.ok (splitLabel (normalize op :: args.map normalize)) : Except Problem Line) = _
  rw [splitLabel, kept]
  rfl

theorem readLine_label {name : Token} (word : IsWord (name ++ [':'])) :
    readLine (printLabel name) = .ok ⟨some (normalize name), []⟩ := by
  have noNul : '\x00' ∉ printLabel name := fun here =>
    (letter_iff.mp (word.letters _ here)).2.2 rfl
  have read : words [] (printLabel name) = [name ++ [':']] := by
    have last := words_last word (.inl rfl)
    rw [List.append_nil] at last
    exact last
  have label : normalize (name ++ [':']) = normalize name ++ [':'] := by
    unfold normalize
    rw [List.map_append]
    rfl
  unfold readLine tokenize
  rw [cString_clean noNul, read]
  show (Except.ok (splitLabel [normalize (name ++ [':'])]) : Except Problem Line) = _
  rw [label, splitLabel, List.getLast?_append, List.dropLast_concat]
  rfl

/-! ## Items -/

/-- The text an item is printed as. -/
def printItem (l : Line) : Text :=
  match l.label with
  | some name => printLabel name
  | none => printStatement l.statement

/-- A word as `normalize` leaves it. -/
structure IsNormal (w : Token) : Prop where
  word : IsWord w
  upper : normalize w = w

/-- A label alone, or a statement that does not begin like a label. -/
inductive IsItem : Line → Prop
  | label {name : Token} (normal : IsNormal (name ++ [':'])) : IsItem ⟨some name, []⟩
  | statement {op : Token} {args : List Token} (normal : ∀ w ∈ op :: args, IsNormal w)
      (few : args.length < maxTokens) (noLabel : op.getLast? ≠ some ':') :
      IsItem ⟨none, op :: args⟩

instance (w : Token) : Decidable (IsNormal w) :=
  decidable_of_iff (w ≠ [] ∧ w.all isLetter = true ∧ normalize w = w)
    ⟨fun ⟨word, letters, upper⟩ => ⟨⟨word, List.all_eq_true.mp letters⟩, upper⟩,
      fun normal => ⟨normal.word.nonempty, List.all_eq_true.mpr normal.word.letters, normal.upper⟩⟩

def Line.isItem : Line → Bool
  | ⟨some name, []⟩ => decide (IsNormal (name ++ [':']))
  | ⟨none, op :: args⟩ => (op :: args).all (fun w => decide (IsNormal w)) &&
      decide (args.length < maxTokens) && op.getLast? != some ':'
  | _ => false

theorem isItem_of {l : Line} (check : l.isItem = true) : IsItem l := by
  unfold Line.isItem at check
  split at check
  · exact .label (of_decide_eq_true check)
  · simp only [Bool.and_eq_true, List.all_eq_true, decide_eq_true_eq, bne_iff_ne] at check
    obtain ⟨⟨normal, few⟩, noLabel⟩ := check
    exact .statement normal few noLabel
  · cases check

theorem IsItem.items {l : Line} (item : IsItem l) : l.items = [l] := by
  cases item <;> rfl

theorem items_of_isItem {is : List Line} (clean : ∀ l ∈ is, IsItem l) : items is = is := by
  induction is with
  | nil => rfl
  | cons l is ih =>
    rw [items_cons, (clean l List.mem_cons_self).items,
      ih fun l' later => clean l' (List.mem_cons_of_mem l later)]
    rfl

theorem normal_args {ws : List Token} (normal : ∀ w ∈ ws, IsNormal w) : ws.map normalize = ws := by
  induction ws with
  | nil => rfl
  | cons w ws ih =>
    rw [List.map_cons, (normal w List.mem_cons_self).upper,
      ih fun v later => normal v (List.mem_cons_of_mem w later)]

theorem IsItem.read {l : Line} (item : IsItem l) : readLine (printItem l) = .ok l := by
  cases item with
  | @label name normal =>
    have upper : normalize name ++ [':'] = name ++ [':'] := by
      have whole := normal.upper
      unfold normalize at whole ⊢
      rw [List.map_append] at whole
      exact whole
    show readLine (printLabel name) = _
    rw [readLine_label normal.word, List.append_cancel_right upper]
  | @statement op args normal few noLabel =>
    have clean : ∀ w ∈ args, IsWord w := fun w inside =>
      (normal w (List.mem_cons_of_mem op inside)).word
    have read := readLine_statement (normal op List.mem_cons_self).word clean few noLabel
      (.inl rfl) List.not_mem_nil
    rw [List.append_nil, normal_args normal] at read
    exact read

theorem IsItem.one {l : Line} (item : IsItem l) : '\n' ∉ printItem l := by
  cases item with
  | label normal =>
    intro here
    have letter := normal.word.letters _ here
    cases letter
  | statement normal _ _ =>
    exact not_mem_printStatement (fun w inside => (normal w inside).word) (by decide) (by decide)
      (by decide)

theorem reads_items {is : List Line} (clean : ∀ l ∈ is, IsItem l) :
    Reads (is.map printItem) is := by
  induction is with
  | nil => exact .nil
  | cons l is ih =>
    exact .cons (clean l List.mem_cons_self).read
      (ih fun l' later => clean l' (List.mem_cons_of_mem l later))

theorem reads_printed_items {is : List Line} (clean : ∀ l ∈ is, IsItem l)
    (short : ∀ l ∈ is, (printItem l).length ≤ 1023) :
    ∃ lines, Reads (fgets ((is.map printItem).map (· ++ ['\n'])).flatten) lines ∧
      items lines = is := by
  have sizes : ∀ text ∈ is.map printItem, '\n' ∉ text ∧ text.length ≤ 1023 := by
    intro text here
    obtain ⟨l, inside, rfl⟩ := List.mem_map.mp here
    exact ⟨(clean l inside).one, short l inside⟩
  obtain ⟨lines, reads', same⟩ := reads_printed sizes (reads_items clean)
  rw [items_of_isItem clean] at same
  exact ⟨lines, reads', same⟩

/-! ## The items of a file -/

theorem tokenize_normal {line : Text} {ts : List Token} (split : tokenize line = some ts) :
    (∀ w ∈ ts, IsNormal w) ∧ ts.length ≤ maxTokens := by
  have noNul : '\x00' ∉ cString line := fun here => by
    have other := List.mem_takeWhile_imp here
    cases other
  unfold tokenize at split
  dsimp only at split
  split at split
  · cases split
  · rename_i few
    cases split
    refine ⟨?_, ?_⟩
    · intro w here
      obtain ⟨v, inside, rfl⟩ := List.mem_map.mp here
      exact ⟨(words_isWord (by simp) noNul inside).normalize, normalize_idem v⟩
    · rw [List.length_map]
      exact Nat.not_lt.mp few

theorem statement_isItem {ts : List Token} (normal : ∀ w ∈ ts, IsNormal w)
    (few : ts.length ≤ maxTokens)
    (noLabel : ∀ op, ts.head? = some op → op.getLast? ≠ some ':') :
    ∀ item ∈ if ts.isEmpty then [] else [(⟨none, ts⟩ : Line)], IsItem item := by
  cases ts with
  | nil => exact fun item here => absurd here List.not_mem_nil
  | cons op args =>
    intro item here
    rw [List.mem_singleton.mp here]
    exact .statement normal few (noLabel op rfl)

theorem readLine_items {line : Text} {l : Line} (read : readLine line = .ok l)
    (noLabel : ∀ op, l.statement.head? = some op → op.getLast? ≠ some ':') :
    ∀ item ∈ l.items, IsItem item := by
  unfold readLine at read
  split at read
  · rename_i ts split
    obtain ⟨normal, few⟩ := tokenize_normal split
    cases read
    cases ts with
    | nil => exact fun item here => absurd here List.not_mem_nil
    | cons t ts =>
      have later : ∀ w ∈ ts, IsNormal w := fun w inside => normal w (List.mem_cons_of_mem t inside)
      rw [splitLabel] at noLabel ⊢
      cases label : t.getLast? == some ':' with
      | true =>
        rw [label] at noLabel
        have whole : t.dropLast ++ [':'] = t :=
          List.dropLast_append_getLast? ':' (beq_iff_eq.mp label)
        intro item here
        obtain here | here := List.mem_append.mp here
        · rw [List.mem_singleton.mp here]
          exact .label (whole.symm ▸ normal t List.mem_cons_self)
        · exact statement_isItem later (Nat.le_of_succ_le few) noLabel item here
      | false =>
        rw [label] at noLabel
        exact statement_isItem normal few noLabel
  · cases read

theorem lineSize_noLabel {read : Reader} {pc : Nat} {op : Token} {args : List Token}
    {r : Nat × List Byte} (sized : lineSize read pc (op :: args) = .ok r) :
    op.getLast? ≠ some ':' := by
  intro label
  have other {w : Token} (ends : w.getLast? ≠ some ':') : (op == w) = false :=
    beq_false_of_ne fun same => ends (same ▸ label)
  have unknown : mnemonic op = none := by
    apply List.find?_eq_none.mpr
    intro m known same
    have text : m.text = op := beq_iff_eq.mp same
    have ends : ∀ m ∈ mnemonics, m.text.getLast? ≠ some ':' := by decide
    exact ends m known (text.symm ▸ label)
  simp only [lineSize, other (show dirOrg.getLast? ≠ some ':' by decide),
    other (show dirByte.getLast? ≠ some ':' by decide),
    other (show dirWord.getLast? ≠ some ':' by decide), instruction, unknown,
    Bool.false_eq_true, if_false] at sized
  cases sized

theorem Reads.line {texts : List Text} {lines : List Line} (reads : Reads texts lines) {l : Line}
    (inside : l ∈ lines) : ∃ text, readLine text = .ok l := by
  induction reads with
  | nil => cases inside
  | cons read _ ih =>
    obtain rfl | later := List.mem_cons.mp inside
    · exact ⟨_, read⟩
    · exact ih later

theorem isItem_of_assembles {texts : List Text} {lines : List Line} (reads : Reads texts lines)
    {layout : Layout} {bytes : List Byte} (assembles : Assembles (items lines) layout bytes) :
    ∀ item ∈ items lines, IsItem item := by
  intro item here
  obtain ⟨l, inside, within⟩ := List.mem_flatMap.mp here
  obtain ⟨before, after, shape⟩ := List.append_of_mem inside
  obtain ⟨text, read⟩ := reads.line inside
  have noLabel : ∀ op, l.statement.head? = some op → op.getLast? ≠ some ':' := by
    intro op first
    obtain ⟨out, emitted, -⟩ := assembles.second
    rw [← emit_items, shape] at emitted
    obtain ⟨o, o', -, stepped, -⟩ := foldlM_split emitted
    unfold emitLine at stepped
    obtain ⟨r, sized, -⟩ := bind_ok.mp stepped
    obtain ⟨args, ops⟩ := List.head?_eq_some_iff.mp first
    rw [ops] at sized
    exact lineSize_noLabel sized
  exact readLine_items read noLabel item within

end ChipEight.Asm
