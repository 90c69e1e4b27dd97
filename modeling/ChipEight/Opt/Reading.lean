import ChipEight.Opt.Canonical

/-! Text both front ends read alike.

On lines of ASCII words, blanks and commas, with a comment only behind a blank,
`parse_source` sees the words the assembler sees.
-/

set_option autoImplicit false

namespace ChipEight.Opt

open Asm (Text Token Line Reads readLine normalize words isLetter isBlank isComment)

/-! ## Characters -/

/-- A character of words for both front ends. -/
def isGraph (c : Char) : Bool := Asm.between '!' '~' c && !isComment c && c != ','

theorem printable_cases : ∀ n < 127, 32 ≤ n →
    isLineBreak (Char.ofNat n) = false ∧ (Asm.toupper (Char.ofNat n)).toNat < 128 ∧
      (isGraph (Char.ofNat n) = true → isLetter (Char.ofNat n) = true ∧
        isWhitespace (Char.ofNat n) = false) := by
  decide +kernel

/-- What a printable character is to both front ends. -/
structure Printable (c : Char) : Prop where
  low : 32 ≤ c.toNat
  high : c.toNat < 127

theorem Printable.cases {c : Char} (printable : Printable c) :
    isLineBreak c = false ∧ (Asm.toupper c).toNat < 128 ∧
      (isGraph c = true → isLetter c = true ∧ isWhitespace c = false) := by
  have all := printable_cases c.toNat printable.high printable.low
  rwa [Char.ofNat_toNat] at all

theorem graph_printable {c : Char} (graph : isGraph c = true) : Printable c := by
  simp only [isGraph, Asm.between, Bool.and_eq_true, decide_eq_true_eq, Char.reduceToNat] at graph
  obtain ⟨⟨⟨low, high⟩, -⟩, -⟩ := graph
  exact ⟨by omega, by omega⟩

theorem graph_letter {c : Char} (graph : isGraph c = true) : isLetter c = true :=
  ((graph_printable graph).cases.2.2 graph).1

/-! ## Words -/

/-- Words, blanks and commas. -/
def Body (text : Text) : Prop := ∀ c ∈ text, isGraph c = true ∨ c = ' ' ∨ c = ','

/-- A line without a comment, or with one behind a blank. -/
structure Neat (line : Text) : Prop where
  shape : ∃ body comment, line = body ++ comment ∧ Body body ∧
    (comment = [] ∨ ∃ cs, comment = ' ' :: ';' :: cs)
  printable : ∀ c ∈ line, Printable c

theorem Neat.one {line : Text} (neat : Neat line) : '\n' ∉ line := fun here =>
  absurd (neat.printable _ here).low (by decide)

theorem Body.comment {text : Text} (body : Body text) {c : Char} (here : c ∈ text) :
    c ≠ ';' ∧ c ≠ '#' := by
  obtain graph | rfl | rfl := body c here
  · have letter := graph_letter graph
    constructor
    · rintro rfl
      cases letter
    · rintro rfl
      cases letter
  · exact ⟨by decide, by decide⟩
  · exact ⟨by decide, by decide⟩

theorem words_tail (cur : Token) (body cs : Text) :
    words cur (body ++ ' ' :: ';' :: cs) = words cur (body ++ [' ']) := by
  induction body generalizing cur with
  | nil =>
    cases cur with
    | nil => rfl
    | cons c cur => rfl
  | cons c body ih =>
    rw [List.cons_append, List.cons_append, words, words]
    simp only [ih]

theorem splitFrom_words {text : Text} (body : Body text) (cur : Token) :
    splitFrom cur (text.map fun c => if c == ',' then ' ' else c) = words cur text := by
  induction text generalizing cur with
  | nil => rfl
  | cons c text ih =>
    have later : Body text := fun c' inside => body c' (List.mem_cons_of_mem c inside)
    rw [List.map_cons, splitFrom, words]
    obtain graph | rfl | rfl := body c List.mem_cons_self
    · obtain ⟨letter, solid⟩ := (graph_printable graph).cases.2.2 graph
      obtain ⟨blank, comment, -⟩ := Asm.letter_iff.mp letter
      have notComma : (c == ',') = false := by
        apply beq_false_of_ne
        rintro rfl
        cases graph
      simp only [notComma, solid, blank, comment, Bool.or_self, Bool.false_eq_true, if_false,
        ih later]
      cases cur with
      | nil => rfl
      | cons d cur => rfl
    · cases cur with
      | nil => exact ih later []
      | cons d cur => exact congrArg ((d :: cur) :: ·) (ih later [])
    · cases cur with
      | nil => exact ih later []
      | cons d cur => exact congrArg ((d :: cur) :: ·) (ih later [])

theorem tokens_neat {line : Text} (neat : Neat line) : tokens line = words [] line := by
  obtain ⟨body, comment, rfl, clean, tail⟩ := neat.shape
  have semicolon : ∀ c ∈ body, (c != ';') = true := fun c here =>
    bne_iff_ne.mpr (clean.comment here).1
  have sharp : ∀ c ∈ body, (c != '#') = true := fun c here =>
    bne_iff_ne.mpr (clean.comment here).2
  unfold tokens
  dsimp only
  rw [List.takeWhile_append_of_pos semicolon]
  obtain rfl | ⟨cs, rfl⟩ := tail
  · rw [List.takeWhile_nil, List.takeWhile_append_of_pos sharp, List.takeWhile_nil,
      List.append_nil, splitFrom_words clean]
  · have blank : Body (body ++ [' ']) := by
      intro c here
      obtain inside | last := List.mem_append.mp here
      · exact clean c inside
      · exact .inr (.inl (List.mem_singleton.mp last))
    rw [words_tail, ← splitFrom_words blank]
    show splitFrom [] (((body ++ [' ']).takeWhile (· != '#')).map _) = _
    rw [List.takeWhile_append_of_pos sharp]
    rfl

/-! ## Lines -/

theorem upper_ascii (U : Unicode) {t : Token} (small : ∀ c ∈ t, c.toNat < 128) :
    upper U t = normalize t := by
  induction t with
  | nil => rfl
  | cons c t ih =>
    show U.upper c ++ upper U t = Asm.toupper c :: normalize t
    rw [U.upperAscii c (small c List.mem_cons_self),
      ih fun c' later => small c' (List.mem_cons_of_mem c later)]
    rfl

theorem parseNumber_other (U : Unicode) {c : Char} (rest : Token) (small : c.toNat < 128)
    (other : Asm.isdigit c = false) (minus : c ≠ '-') (plus : c ≠ '+') :
    parseNumber U (c :: rest) = none := by
  have zero : c ≠ '0' := by
    rintro rfl
    cases other
  have large {d : Nat} (digit : Asm.digitValue c = some d) : 10 ≤ d := by
    unfold Asm.digitValue at digit
    rw [other, if_neg Bool.false_ne_true] at digit
    split at digit
    · cases digit
      exact Nat.le_add_left 10 _
    · split at digit
      · cases digit
        exact Nat.le_add_left 10 _
      · cases digit
  have noDigit : digit U 10 c = none := by
    unfold digit
    rw [U.decimalAscii c small, other, if_neg Bool.false_ne_true]
    cases digit : Asm.digitValue c with
    | none => rfl
    | some d => exact Option.filter_some_neg (by simpa using large digit)
  have digits : digits U 10 (c :: rest) = none := by
    rw [digits, noDigit]
    rfl
  have number : int U 10 (c :: rest) = none := by
    unfold int
    split
    · rename_i same
      exact absurd (List.cons.inj same).1 minus
    · rename_i same
      exact absurd (List.cons.inj same).1 plus
    · show (Opt.digits U 10 (c :: rest)).map _ = _
      rw [digits]
      rfl
  unfold parseNumber
  split
  · rename_i same
    exact absurd (List.cons.inj same).1 zero
  · rename_i same
    exact absurd (List.cons.inj same).1 zero
  · rename_i same
    exact absurd (List.cons.inj same).1 zero
  · exact number

theorem parseNumber_letter (U : Unicode) {c : Char} (rest : Token)
    (letter : c ∈ ['V', 'D', 'K', '[']) : parseNumber U (c :: rest) = none := by
  simp only [List.mem_cons, List.not_mem_nil, or_false] at letter
  obtain rfl | rfl | rfl | rfl := letter <;>
    exact parseNumber_other U rest (by decide) (by decide) (by decide) (by decide)

theorem sourceLine_ascii (U : Unicode) {ws : List Token} (small : ∀ w ∈ ws, ∀ c ∈ w, c.toNat < 128) :
    sourceLine U ws = Asm.splitLabel (ws.map normalize) := by
  have statement {ts : List Token} (sub : ∀ w ∈ ts, w ∈ ws) :
      ts.map (upper U) = ts.map normalize :=
    List.map_congr_left fun w here => upper_ascii U (small w (sub w here))
  cases ws with
  | nil => rfl
  | cons w ws =>
    have colon : ((normalize w).getLast? == some ':') = (w.getLast? == some ':') := by
      rw [Bool.eq_iff_iff, beq_iff_eq, beq_iff_eq]
      exact Asm.normalize_label w
    unfold sourceLine splitLabel
    rw [List.map_cons, Asm.splitLabel, colon]
    dsimp only
    cases w.getLast? == some ':' with
    | true =>
      have initial : upper U w.dropLast = (normalize w).dropLast := by
        rw [upper_ascii U fun c here => small w List.mem_cons_self c (List.mem_of_mem_dropLast here)]
        exact List.map_dropLast
      show (⟨some (upper U w.dropLast), ws.map (upper U)⟩ : Line) = ⟨some _, _⟩
      rw [initial, statement fun v later => List.mem_cons_of_mem w later]
    | false =>
      show (⟨none, (w :: ws).map (upper U)⟩ : Line) = ⟨none, _⟩
      rw [statement fun v here => here]
      rfl

theorem words_chars {cur : Token} {line : Text} {w : Token} (here : w ∈ words cur line) {c : Char}
    (inside : c ∈ w) : c ∈ cur ∨ c ∈ line := by
  induction line generalizing cur with
  | nil =>
    unfold words at here
    split at here
    · cases here
    · rw [List.mem_singleton.mp here] at inside
      exact .inl inside
  | cons d ds ih =>
    have deeper {cur' : Token} (later : w ∈ words cur' ds) (sub : ∀ x ∈ cur', x ∈ cur ∨ x = d) :
        c ∈ cur ∨ c ∈ d :: ds := by
      obtain old | new := ih later
      · obtain kept | rfl := sub c old
        · exact .inl kept
        · exact .inr List.mem_cons_self
      · exact .inr (List.mem_cons_of_mem d new)
    unfold words at here
    split at here
    · split at here
      · cases here
      split at here
      · exact deeper here fun x none => absurd none List.not_mem_nil
      · exact deeper here fun x only => .inr (List.mem_singleton.mp only)
    · split at here
      · obtain rfl | later := List.mem_cons.mp here
        · exact .inl inside
        · exact deeper later fun x none => absurd none List.not_mem_nil
      · refine deeper here fun x both => ?_
        obtain old | new := List.mem_append.mp both
        · exact .inl old
        · exact .inr (List.mem_singleton.mp new)

theorem encodeLine_ascii {ts : List Token} (small : ∀ w ∈ ts, ∀ c ∈ w, c.toNat < 128) :
    encodeLine (Asm.splitLabel ts) = Asm.splitLabel ts := by
  have statement {ws : List Token} (sub : ∀ w ∈ ws, w ∈ ts) : ws.map encode = ws :=
    (List.map_congr_left fun w here => encode_ascii (small w (sub w here))).trans (List.map_id ws)
  cases ts with
  | nil => rfl
  | cons w ws =>
    unfold Asm.splitLabel encodeLine
    dsimp only
    cases w.getLast? == some ':' with
    | true =>
      have initial : encode w.dropLast = w.dropLast := encode_ascii fun c here =>
        small w List.mem_cons_self c (List.mem_of_mem_dropLast here)
      show (⟨some (encode w.dropLast), ws.map encode⟩ : Line) = ⟨some w.dropLast, ws⟩
      rw [initial, statement fun v later => List.mem_cons_of_mem w later]
    | false =>
      show (⟨none, (w :: ws).map encode⟩ : Line) = ⟨none, w :: ws⟩
      rw [statement fun v here => here]

theorem sourceLine_read (U : Unicode) {line : Text} (neat : Neat line) {l : Line}
    (read : readLine line = .ok l) :
    sourceLine U (tokens line) = l ∧ encodeLine l = l := by
  have noNul : '\x00' ∉ line := fun here => absurd (neat.printable _ here).low (by decide)
  have printable : ∀ w ∈ words [] line, ∀ c ∈ w, Printable c := by
    intro w here c inside
    obtain old | there := words_chars here inside
    · cases old
    · exact neat.printable c there
  have ascii : ∀ w ∈ words [] line, ∀ c ∈ w, c.toNat < 128 := fun w here c inside =>
    Nat.lt_succ_of_lt (printable w here c inside).high
  have same : l = Asm.splitLabel ((words [] line).map normalize) := by
    unfold readLine Asm.tokenize at read
    rw [Asm.cString_clean noNul] at read
    dsimp only at read
    split at read
    · rename_i ts split
      split at split
      · cases split
      · cases split
        exact (Except.ok.inj read).symm
    · cases read
  constructor
  · rw [same, tokens_neat neat, sourceLine_ascii U ascii]
  · rw [same]
    apply encodeLine_ascii
    intro w here c inside
    obtain ⟨v, there, rfl⟩ := List.mem_map.mp here
    obtain ⟨d, deep, rfl⟩ := List.mem_map.mp inside
    exact (printable v there d deep).cases.2.1

theorem splitlinesFrom_whole {t : Text} (whole : ∀ c ∈ t, isLineBreak c = false) (cur rest : Text) :
    splitlinesFrom cur (t ++ '\n' :: rest) = (cur ++ t) :: splitlinesFrom [] rest := by
  induction t generalizing cur with
  | nil =>
    rw [List.append_nil]
    rfl
  | cons c t ih =>
    have here := whole c List.mem_cons_self
    have notReturn : c ≠ '\r' := by
      rintro rfl
      cases here
    rw [List.cons_append, splitlinesFrom, here]
    · simp only [Bool.false_eq_true, if_false]
      rw [ih (fun c' later => whole c' (List.mem_cons_of_mem c later)), List.append_assoc]
      rfl
    · intro cs same
      exact absurd same notReturn

theorem splitlines_printed {texts : List Text}
    (whole : ∀ t ∈ texts, ∀ c ∈ t, isLineBreak c = false) :
    splitlines (texts.map (· ++ ['\n'])).flatten = texts := by
  induction texts with
  | nil => rfl
  | cons t texts ih =>
    have shape : ((t :: texts).map (· ++ ['\n'])).flatten =
        t ++ '\n' :: (texts.map (· ++ ['\n'])).flatten := by
      simp
    rw [shape, splitlines, splitlinesFrom_whole (whole t List.mem_cons_self), List.nil_append]
    exact congrArg (t :: ·) (ih fun t' later => whole t' (List.mem_cons_of_mem t later))

theorem items_statement {l : Line} {ws : List Token} (here : ⟨none, ws⟩ ∈ l.items) :
    l.statement = ws := by
  obtain ⟨label, statement⟩ := l
  obtain first | second := List.mem_append.mp here
  · cases label with
    | none => cases first
    | some name => cases List.mem_singleton.mp first
  · cases statement with
    | nil => cases second
    | cons op args => exact (Line.mk.inj (List.mem_singleton.mp second)).2.symm

theorem encode_printed {texts : List Text} (neat : ∀ t ∈ texts, Neat t) :
    encode (texts.map (· ++ ['\n'])).flatten = (texts.map (· ++ ['\n'])).flatten := by
  apply encode_ascii
  intro c here
  obtain ⟨line, inside, within⟩ := List.mem_flatten.mp here
  obtain ⟨t, there, rfl⟩ := List.mem_map.mp inside
  obtain old | last := List.mem_append.mp within
  · exact Nat.lt_succ_of_lt ((neat t there).printable c old).high
  · rw [List.mem_singleton.mp last]
    decide

theorem sameReading_printed (U : Unicode) {texts : List Text} {lines : List Line}
    (reads : Reads texts lines) (neat : ∀ t ∈ texts, Neat t) (fits : ∀ t ∈ texts, t.length ≤ 1023)
    (noOrg : ∀ l ∈ lines, l.statement.head? ≠ some opOrg)
    (short : ∀ item ∈ Asm.items lines, (Asm.printItem item).length ≤ 1023) :
    SameReading U (texts.map (· ++ ['\n'])).flatten := by
  have source : sourceItems U (texts.map (· ++ ['\n'])).flatten = Asm.items lines ∧
      (Asm.items lines).map encodeLine = Asm.items lines := by
    unfold sourceItems
    rw [splitlines_printed fun t here c inside => ((neat t here).printable c inside).cases.1]
    clear fits noOrg short
    induction reads with
    | nil => exact ⟨rfl, rfl⟩
    | @cons t l texts lines read _ ih =>
      obtain ⟨same, still⟩ := sourceLine_read U (neat t List.mem_cons_self) read
      obtain ⟨rest, fixed⟩ := ih fun t' later => neat t' (List.mem_cons_of_mem t later)
      rw [List.flatMap_cons, Asm.items_cons, List.map_append, rest, fixed, ← items_encode, still]
      refine ⟨?_, rfl⟩
      rw [lineItems, same]
  have sizes : ∀ t ∈ texts, '\n' ∉ t ∧ t.length ≤ 1023 := fun t here =>
    ⟨(neat t here).one, fits t here⟩
  refine ⟨?_, ?_, ?_⟩
  · rw [encode_printed neat, source.1, source.2]
    exact Asm.reads_printed sizes reads
  · intro a here
    rw [source.1] at here
    obtain ⟨l, inside, within⟩ := List.mem_flatMap.mp here
    exact absurd (congrArg List.head? (items_statement within)) (noOrg l inside)
  · intro item here
    rw [source.1] at here
    have same : encodeLine item = item :=
      List.map_inj_left.mp (source.2.trans (List.map_id _).symm) item here
    rw [same]
    exact short item here

end ChipEight.Opt
