import ChipEight.Asm.Agreement
import Mathlib.Data.List.TakeWhile
import Mathlib.Tactic.IntervalCases

/-! Printing source that the assembler reads back.

A label and the statement behind it may as well stand on two lines, and lines without
words may be left out. Up to that the assembler sees a list of items, and a text printed
from items is read as these items.
-/

set_option autoImplicit false

namespace ChipEight.Asm

/-! ## Words -/

/-- A character that neither separates words nor starts a comment. -/
def isLetter (c : Char) : Bool := !isBlank c && !isComment c && c != '\x00'

structure IsWord (w : Token) : Prop where
  nonempty : w ≠ []
  letters : ∀ c ∈ w, isLetter c = true

theorem letter_iff {c : Char} :
    isLetter c = true ↔ isBlank c = false ∧ isComment c = false ∧ c ≠ '\x00' := by
  simp only [isLetter, Bool.and_eq_true, Bool.not_eq_true', bne_iff_ne, and_assoc]

theorem words_blank {c : Char} (blank : isBlank c = true) (cs : Text) :
    words [] (c :: cs) = words [] cs := by
  have notComment : isComment c = false := by
    apply Bool.eq_false_iff.mpr
    intro comment
    simp only [isComment, Bool.or_eq_true, beq_iff_eq] at comment
    obtain rfl | rfl := comment <;> cases blank
  simp only [words, List.isEmpty_nil, if_true, notComment, Bool.false_eq_true, if_false, blank]

theorem words_comment {c : Char} (comment : isComment c = true) (cs : Text) :
    words [] (c :: cs) = [] := by
  simp only [words, List.isEmpty_nil, if_true, comment]

theorem words_letters {cur w : Token} (begun : cur ≠ []) (letters : ∀ c ∈ w, isLetter c = true)
    (cs : Text) : words cur (w ++ cs) = words (cur ++ w) cs := by
  induction w generalizing cur with
  | nil => rw [List.nil_append, List.append_nil]
  | cons c w ih =>
    obtain ⟨blank, comment, -⟩ := letter_iff.mp (letters c List.mem_cons_self)
    have some : cur.isEmpty = false := List.isEmpty_eq_false_iff.mpr begun
    rw [List.cons_append, words]
    simp only [some, blank, comment, Bool.or_self, Bool.false_eq_true, if_false]
    rw [ih (by simp) fun c' later => letters c' (List.mem_cons_of_mem c later), List.append_assoc]
    rfl

theorem words_begin {w : Token} (word : IsWord w) (cs : Text) :
    words [] (w ++ cs) = words w cs := by
  cases w with
  | nil => exact absurd rfl word.nonempty
  | cons c w =>
    obtain ⟨blank, comment, -⟩ := letter_iff.mp (word.letters c List.mem_cons_self)
    rw [List.cons_append, words]
    simp only [List.isEmpty_nil, blank, comment, Bool.false_eq_true, if_true, if_false]
    exact words_letters (by simp) (fun c' later => word.letters c' (List.mem_cons_of_mem c later)) cs

theorem words_word {w : Token} (word : IsWord w) {c : Char}
    (ends : (isBlank c || isComment c) = true) (cs : Text) :
    words [] (w ++ c :: cs) = w :: words [] cs := by
  have some : w.isEmpty = false := List.isEmpty_eq_false_iff.mpr word.nonempty
  rw [words_begin word, words]
  simp only [some, ends, Bool.false_eq_true, if_false, if_true]

theorem words_isWord {cur : Token} (clean : ∀ c ∈ cur, isLetter c = true) {line : Text}
    (noNul : '\x00' ∉ line) {w : Token} (mem : w ∈ words cur line) : IsWord w := by
  -- Along the line, with the letters of the word that has begun.
  induction line generalizing cur with
  | nil =>
    unfold words at mem
    split at mem
    · cases mem
    · rename_i some
      rw [List.mem_singleton.mp mem]
      exact ⟨fun empty => some (List.isEmpty_iff.mpr empty), clean⟩
  | cons c cs ih =>
    obtain ⟨notNul, rest⟩ := not_or.mp (mt List.mem_cons.mpr noNul)
    unfold words at mem
    split at mem
    · split at mem
      · cases mem
      · rename_i comment
        split at mem
        · exact ih (by simp) rest mem
        · rename_i blank
          refine ih ?_ rest mem
          intro c' here
          rw [List.mem_singleton.mp here]
          exact letter_iff.mpr ⟨Bool.eq_false_iff.mpr blank, Bool.eq_false_iff.mpr comment,
            fun nul => notNul nul.symm⟩
    · rename_i some
      split at mem
      · obtain rfl | later := List.mem_cons.mp mem
        · exact ⟨fun empty => some (List.isEmpty_iff.mpr empty), clean⟩
        · exact ih (by simp) rest later
      · rename_i inside
        obtain ⟨blank, comment⟩ := not_or.mp (mt Bool.or_eq_true_iff.mpr inside)
        refine ih ?_ rest mem
        intro c' here
        obtain old | new := List.mem_append.mp here
        · exact clean c' old
        · rw [List.mem_singleton.mp new]
          exact letter_iff.mpr ⟨Bool.eq_false_iff.mpr blank, Bool.eq_false_iff.mpr comment,
            fun nul => notNul nul.symm⟩

theorem lower_cases {c : Char} (lower : islower c = true) :
    ∃ n, 97 ≤ n ∧ n ≤ 122 ∧ c = Char.ofNat n := by
  simp only [islower, between, Char.reduceToNat, Bool.and_eq_true, decide_eq_true_eq] at lower
  exact ⟨c.toNat, lower.1, lower.2, (Char.ofNat_toNat c).symm⟩

theorem toupper_lower {c : Char} (lower : islower c = true) :
    islower (toupper c) = false ∧ isLetter (toupper c) = true := by
  obtain ⟨n, low, high, rfl⟩ := lower_cases lower
  clear lower
  interval_cases n <;> decide

theorem toupper_other {c : Char} (other : islower c = false) : toupper c = c := by
  simp only [toupper, other, Bool.false_eq_true, if_false]

theorem toupper_idem (c : Char) : toupper (toupper c) = toupper c := by
  cases lower : islower c with
  | true => exact toupper_other (toupper_lower lower).1
  | false => rw [toupper_other lower, toupper_other lower]

theorem toupper_letter {c : Char} (letter : isLetter c = true) : isLetter (toupper c) = true := by
  cases lower : islower c with
  | true => exact (toupper_lower lower).2
  | false =>
    rw [toupper_other lower]
    exact letter

theorem toupper_colon (c : Char) : toupper c = ':' ↔ c = ':' := by
  cases lower : islower c with
  | true =>
    obtain ⟨n, low, high, rfl⟩ := lower_cases lower
    clear lower
    interval_cases n <;> decide
  | false => rw [toupper_other lower]

theorem normalize_label (t : Token) : (normalize t).getLast? = some ':' ↔ t.getLast? = some ':' := by
  unfold normalize
  rw [List.getLast?_map, Option.map_eq_some_iff]
  constructor
  · rintro ⟨c, last, upper⟩
    rw [last, (toupper_colon c).mp upper]
  · intro last
    exact ⟨':', last, rfl⟩

theorem normalize_idem (t : Token) : normalize (normalize t) = normalize t := by
  unfold normalize
  rw [List.map_map]
  exact List.map_congr_left fun c _ => toupper_idem c

theorem IsWord.normalize {w : Token} (word : IsWord w) : IsWord (normalize w) := by
  constructor
  · exact fun empty => word.nonempty (List.map_eq_nil_iff.mp empty)
  · intro c here
    obtain ⟨c', inside, rfl⟩ := List.mem_map.mp here
    exact toupper_letter (word.letters c' inside)

/-! ## Items -/

/-- The label and the statement of a line, each as a line of its own. -/
def Line.items (l : Line) : List Line :=
  (match l.label with
    | some name => [⟨some name, []⟩]
    | none => []) ++ if l.statement.isEmpty then [] else [⟨none, l.statement⟩]

def items (lines : List Line) : List Line := lines.flatMap Line.items

theorem items_cons (l : Line) (lines : List Line) : items (l :: lines) = l.items ++ items lines :=
  List.flatMap_cons

theorem layoutLine_items {st : Layout} (fits : st.pc ≤ memorySize) (l : Line) :
    layoutLine st l = l.items.foldlM layoutLine st := by
  obtain ⟨label, statement⟩ := l
  have small : ¬ st.pc + 0 > memorySize := Nat.not_lt.mpr fits
  cases label with
  | none =>
    cases statement with
    | nil =>
      show (if st.pc + 0 > memorySize then _ else _) = _
      rw [if_neg small]
      rfl
    | cons op args =>
      show _ = layoutLine st ⟨none, op :: args⟩ >>= fun st' => pure st'
      rw [bind_pure]
  | some name =>
    cases statement with
    | nil =>
      show _ = layoutLine st ⟨some name, []⟩ >>= fun st' => pure st'
      rw [bind_pure]
    | cons op args =>
      show layoutLine st ⟨some name, op :: args⟩ = layoutLine st ⟨some name, []⟩ >>= fun st' =>
        layoutLine st' ⟨none, op :: args⟩ >>= fun st'' => pure st''
      simp only [bind_pure]
      unfold layoutLine
      cases defineLabel st (some name) with
      | error p => rfl
      | ok symbols =>
        show _ = (if st.pc + 0 > memorySize then _ else _) >>= _
        rw [if_neg small]
        rfl

theorem layout_items {st : Layout} (fits : st.pc ≤ memorySize) (lines : List Line) :
    lines.foldlM layoutLine st = (items lines).foldlM layoutLine st := by
  induction lines generalizing st with
  | nil => rfl
  | cons l rest ih =>
    rw [items_cons, List.foldlM_cons, List.foldlM_append, ← layoutLine_items fits]
    cases laid : layoutLine st l with
    | error p => rfl
    | ok st' => exact ih (layoutLine_ok laid).2.1

theorem emitLine_items (symbols : List Symbol) (st : Output) (l : Line) :
    emitLine symbols st l = l.items.foldlM (emitLine symbols) st := by
  obtain ⟨label, statement⟩ := l
  have blank (label : Option Token) : emitLine symbols st ⟨label, []⟩ = .ok st := by
    show Except.ok (⟨st.pc + 0, st.bytes ++ []⟩ : Output) = _
    rw [List.append_nil]
    rfl
  cases label with
  | none =>
    cases statement with
    | nil => exact blank none
    | cons op args =>
      show _ = emitLine symbols st ⟨none, op :: args⟩ >>= fun st' => pure st'
      rw [bind_pure]
  | some name =>
    cases statement with
    | nil =>
      show _ = emitLine symbols st ⟨some name, []⟩ >>= fun st' => pure st'
      rw [bind_pure]
    | cons op args =>
      show _ = emitLine symbols st ⟨some name, []⟩ >>= fun st' =>
        emitLine symbols st' ⟨none, op :: args⟩ >>= fun st'' => pure st''
      rw [blank (some name)]
      show _ = emitLine symbols st ⟨none, op :: args⟩ >>= fun st'' => pure st''
      rw [bind_pure]
      rfl

theorem emit_items (symbols : List Symbol) (st : Output) (lines : List Line) :
    lines.foldlM (emitLine symbols) st = (items lines).foldlM (emitLine symbols) st := by
  induction lines generalizing st with
  | nil => rfl
  | cons l rest ih =>
    rw [items_cons, List.foldlM_cons, List.foldlM_append, ← emitLine_items]
    cases emitted : emitLine symbols st l with
    | error p => rfl
    | ok st' => exact ih st'

/-- What the two passes make of items. -/
structure Assembles (is : List Line) (layout : Layout) (bytes : List Byte) : Prop where
  first : is.foldlM layoutLine .start = .ok layout
  second : ∃ out, is.foldlM (emitLine layout.symbols) .start = .ok out ∧ out.bytes = bytes

theorem assemble_ok {file : Text} {bytes : List Byte} :
    assemble file = .ok bytes ↔ ∃ lines layout, Reads (fgets file) lines ∧
      Assembles (items lines) layout bytes := by
  have room : Layout.start.pc ≤ memorySize := by decide
  unfold assemble
  constructor
  · intro assembled
    obtain ⟨layout, first, assembled⟩ := bind_ok.mp assembled
    obtain ⟨out, second, assembled⟩ := bind_ok.mp assembled
    cases assembled
    obtain ⟨lines, reads, folded⟩ := eachLine_ok.mp first
    obtain ⟨lines', reads', folded'⟩ := eachLine_ok.mp second
    obtain rfl := reads_unique reads reads'
    rw [layout_items room] at folded
    rw [emit_items] at folded'
    exact ⟨lines, layout, reads, folded, out, folded', rfl⟩
  · rintro ⟨lines, layout, reads, folded, out, folded', rfl⟩
    rw [← layout_items room] at folded
    rw [← emit_items] at folded'
    have first : firstPass file = .ok layout := eachLine_ok.mpr ⟨lines, reads, folded⟩
    have second : secondPass layout.symbols file = .ok out :=
      eachLine_ok.mpr ⟨lines, reads, folded'⟩
    rw [first]
    show (secondPass layout.symbols file >>= fun _ => _) = _
    rw [second]
    rfl

theorem firstPass_ok {file : Text} {layout : Layout} :
    firstPass file = .ok layout ↔ ∃ lines, Reads (fgets file) lines ∧
      (items lines).foldlM layoutLine .start = .ok layout := by
  have room : Layout.start.pc ≤ memorySize := by decide
  refine eachLine_ok.trans ?_
  constructor
  · rintro ⟨lines, reads, folded⟩
    exact ⟨lines, reads, (layout_items room lines) ▸ folded⟩
  · rintro ⟨lines, reads, folded⟩
    exact ⟨lines, reads, (layout_items room lines).symm ▸ folded⟩

/-! ## Printed lines -/

theorem words_newline (cur : Token) (line : Text) :
    words cur (line ++ ['\n']) = words cur line := by
  induction line generalizing cur with
  | nil =>
    cases cur with
    | nil => rfl
    | cons c cs => rfl
  | cons c cs ih =>
    rw [List.cons_append, words, words]
    simp only [ih]

theorem cString_clean {line : Text} (noNul : '\x00' ∉ line) : cString line = line := by
  unfold cString
  apply List.takeWhile_eq_self_iff.mpr
  intro c here
  exact bne_iff_ne.mpr fun nul => noNul (nul ▸ here)

theorem cString_newline (line : Text) :
    cString (line ++ ['\n']) = cString line ++ ['\n'] ∨
      cString (line ++ ['\n']) = cString line := by
  induction line with
  | nil => exact .inl rfl
  | cons c cs ih =>
    unfold cString at ih ⊢
    rw [List.cons_append, List.takeWhile_cons, List.takeWhile_cons]
    split
    · obtain same | same := ih
      · exact .inl (congrArg (c :: ·) same)
      · exact .inr (congrArg (c :: ·) same)
    · exact .inr rfl

theorem words_cString_newline (line : Text) :
    words [] (cString (line ++ ['\n'])) = words [] (cString line) := by
  obtain cut | cut := cString_newline line
  · rw [cut, words_newline]
  · rw [cut]

theorem readLine_newline (line : Text) : readLine (line ++ ['\n']) = readLine line := by
  unfold readLine tokenize
  rw [words_cString_newline]

theorem fgetsFrom_short {cur line : Text} (one : '\n' ∉ line)
    (short : cur.length + line.length ≤ 1022) (rest : Text) :
    fgetsFrom cur (line ++ '\n' :: rest) = (cur ++ line ++ ['\n']) :: fgetsFrom [] rest := by
  induction line generalizing cur with
  | nil =>
    rw [List.nil_append, fgetsFrom]
    simp
  | cons c cs ih =>
    obtain ⟨notNewline, later⟩ := not_or.mp (mt List.mem_cons.mpr one)
    rw [List.length_cons] at short
    have goesOn : (c == '\n' || cur.length + 2 == maxLine) = false := by
      rw [Bool.or_eq_false_iff]
      refine ⟨beq_false_of_ne fun same => notNewline same.symm, beq_false_of_ne ?_⟩
      have size : maxLine = 1024 := rfl
      omega
    have shorter : (cur ++ [c]).length + cs.length ≤ 1022 := by
      rw [List.length_append, List.length_singleton]
      omega
    rw [List.cons_append, fgetsFrom, goesOn]
    simp only [Bool.false_eq_true, if_false]
    rw [ih later shorter, List.append_assoc cur [c] cs]
    rfl

theorem fgetsFrom_full {cur line : Text} (one : '\n' ∉ line) (some : line ≠ [])
    (full : cur.length + line.length = 1023) (rest : Text) :
    fgetsFrom cur (line ++ '\n' :: rest) = (cur ++ line) :: ['\n'] :: fgetsFrom [] rest := by
  induction line generalizing cur with
  | nil => exact absurd rfl some
  | cons c cs ih =>
    obtain ⟨notNewline, later⟩ := not_or.mp (mt List.mem_cons.mpr one)
    rw [List.length_cons] at full
    have size : maxLine = 1024 := rfl
    have notHere : (c == '\n') = false := beq_false_of_ne fun same => notNewline same.symm
    cases cs with
    | nil =>
      have last : (cur.length + 2 == maxLine) = true := beq_iff_eq.mpr (by
        rw [List.length_nil] at full
        omega)
      rw [List.cons_append, fgetsFrom, last, Bool.or_true, if_pos rfl]
      rfl
    | cons d ds =>
      have goesOn : (c == '\n' || cur.length + 2 == maxLine) = false := by
        rw [notHere, Bool.false_or]
        apply beq_false_of_ne
        rw [List.length_cons] at full
        omega
      have still : (cur ++ [c]).length + (d :: ds).length = 1023 := by
        rw [List.length_append, List.length_singleton]
        omega
      rw [List.cons_append, fgetsFrom, goesOn]
      simp only [Bool.false_eq_true, if_false]
      rw [ih later (by simp) still, List.append_assoc cur [c] (d :: ds)]
      rfl

theorem reads_printed {texts : List Text} {lines : List Line}
    (short : ∀ text ∈ texts, '\n' ∉ text ∧ text.length ≤ 1023) (reads : Reads texts lines) :
    ∃ lines', Reads (fgets (texts.map (· ++ ['\n'])).flatten) lines' ∧
      items lines' = items lines := by
  induction reads with
  | nil => exact ⟨[], .nil, rfl⟩
  | @cons text l texts lines read _ ih =>
    obtain ⟨one, size⟩ := short text List.mem_cons_self
    obtain ⟨lines', reads', same⟩ := ih fun text' later =>
      short text' (List.mem_cons_of_mem text later)
    have joined : ((text :: texts).map (· ++ ['\n'])).flatten =
        text ++ '\n' :: (texts.map (· ++ ['\n'])).flatten := by
      simp
    rw [joined]
    by_cases full : text.length = 1023
    · refine ⟨l :: ⟨none, []⟩ :: lines', ?_, ?_⟩
      · have nonempty : text ≠ [] := by
          rintro rfl
          cases full
        unfold fgets
        rw [fgetsFrom_full one nonempty (by simpa using full), List.nil_append]
        exact .cons read (.cons rfl reads')
      · rw [items_cons, items_cons, items_cons, same]
        rfl
    · refine ⟨l :: lines', ?_, ?_⟩
      · unfold fgets
        rw [fgetsFrom_short one (by rw [List.length_nil]; omega), List.nil_append]
        exact .cons ((readLine_newline text).trans read) reads'
      · rw [items_cons, items_cons, same]

end ChipEight.Asm
