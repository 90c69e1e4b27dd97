import ChipEight.Asm.Printing
import ChipEight.Opt.Source

/-! `canonicalize` does not change the ROM.

Wherever the two front ends see the same words, `parse_source` lays the program out as
the first pass does, and the canonical text is read as the items it was printed from.
-/

set_option autoImplicit false

namespace ChipEight.Opt

open Asm (Text Token Line Symbol Layout Reads fgets items)

/-! ## UTF-8 -/

theorem encode_append (s t : Text) : encode (s ++ t) = encode s ++ encode t :=
  List.flatMap_append

theorem encode_ascii {t : Text} (small : ∀ c ∈ t, c.toNat < 128) : encode t = t := by
  induction t with
  | nil => rfl
  | cons c t ih =>
    have here : utf8 c = [c] := by
      unfold utf8
      exact if_pos (small c List.mem_cons_self)
    show utf8 c ++ encode t = c :: t
    rw [here, ih fun c' later => small c' (List.mem_cons_of_mem c later)]
    rfl

theorem toNat_ofNat {n : Nat} (small : n < 256) : (Char.ofNat n).toNat = n := by
  have valid : n.isValidChar := .inl (by omega)
  unfold Char.ofNat
  rw [dif_pos valid]
  rfl

theorem ascii_of_encode {t : Text} (small : ∀ c ∈ encode t, c.toNat < 128) :
    ∀ c ∈ t, c.toNat < 128 := by
  intro c here
  by_contra large
  have first : ∃ b ∈ utf8 c, 128 ≤ b.toNat := by
    unfold utf8
    dsimp only
    have bound := c.valid
    rw [if_neg (by omega)]
    split
    · refine ⟨_, List.mem_cons_self, ?_⟩
      rw [toNat_ofNat (by omega)]
      omega
    split
    · refine ⟨_, List.mem_cons_self, ?_⟩
      rw [toNat_ofNat (by omega)]
      omega
    · refine ⟨_, List.mem_cons_of_mem _ List.mem_cons_self, ?_⟩
      rw [toNat_ofNat (by omega)]
      omega
  obtain ⟨b, inside, high⟩ := first
  have low := small b (List.mem_flatMap.mpr ⟨c, here, inside⟩)
  omega

theorem encode_eq_ascii {t s : Text} (small : ∀ c ∈ s, c.toNat < 128) : encode t = s ↔ t = s := by
  constructor
  · intro same
    have ascii := ascii_of_encode (same ▸ small)
    rw [encode_ascii ascii] at same
    exact same
  · rintro rfl
    exact encode_ascii small

/-! ## What both front ends read -/

/-- A line of `parse_source` as the label and the upper-case words of a statement. -/
def sourceLine (U : Unicode) (words : List Token) : Line :=
  let r := splitLabel U words
  ⟨r.1, r.2.map (upper U)⟩

/-- The items `parse_source` reads from a line. -/
def lineItems (U : Unicode) (line : Text) : List Line := (sourceLine U (tokens line)).items

def sourceItems (U : Unicode) (text : Text) : List Line := (splitlines text).flatMap (lineItems U)

def encodeLine (l : Line) : Line := ⟨l.label.map encode, l.statement.map encode⟩

/-- The front ends agree on a text: they see the same words, read the operand of each
`.ORG` as the same number, and no line has to be printed that `fgets` would split. -/
structure SameReading (U : Unicode) (text : Text) : Prop where
  words : ∃ lines, Reads (fgets (encode text)) lines ∧
    items lines = (sourceItems U text).map encodeLine
  org : ∀ a, ⟨none, [opOrg, a]⟩ ∈ sourceItems U text →
    ∃ n : Nat, Asm.strtoul (encode a) = some n ∧ parseNumber U a = some (n : Int)
  short : ∀ item ∈ sourceItems U text, (Asm.printItem (encodeLine item)).length ≤ 1023

/-! ## The layout -/

def encodeLabels (labels : Labels) : List Symbol := labels.map fun r => ⟨encode r.1, r.2⟩

/-- `parse_source` has come as far as the first pass. -/
structure Keeps (st : Parsed) (layout : Layout) : Prop where
  pc : st.pc = layout.pc
  labels : encodeLabels st.labels = layout.symbols

theorem lookup_encode {labels : Labels} {label : Token} {n : Nat}
    (found : labels.lookup label = some n) :
    (Asm.lookup (encodeLabels labels) (encode label)).isSome = true := by
  induction labels with
  | nil => cases found
  | cons r rest ih =>
    obtain ⟨name, value⟩ := r
    unfold Asm.lookup encodeLabels at ih ⊢
    rw [List.map_cons, List.find?_cons]
    by_cases same : encode name = encode label
    · rw [beq_iff_eq.mpr same]
      rfl
    · rw [beq_false_of_ne same]
      have apart : (label == name) = false :=
        beq_false_of_ne fun equal => same (congrArg encode equal.symm)
      rw [List.lookup_cons, apart] at found
      exact ih found

theorem addLabel_keeps {st : Parsed} {layout : Layout} (keeps : Keeps st layout) {lineNo : Nat}
    {label : Option Token} {symbols : List Symbol}
    (defined : Asm.defineLabel layout (label.map encode) = .ok symbols) :
    ∃ labels, addLabel lineNo st label = .ok labels ∧ encodeLabels labels = symbols := by
  cases label with
  | none =>
    cases defined
    exact ⟨st.labels, rfl, keeps.labels⟩
  | some name =>
    obtain ⟨valid, fresh, rfl⟩ := Asm.define_ok defined
    have some : name.isEmpty = false := by
      cases name with
      | nil => cases valid
      | cons c cs => rfl
    have new : (st.labels.lookup name).isSome = false := by
      apply Bool.eq_false_iff.mpr
      intro known
      obtain ⟨n, found⟩ := Option.isSome_iff_exists.mp known
      have there := lookup_encode found
      rw [keeps.labels, fresh] at there
      cases there
    refine ⟨st.labels ++ [(name, st.pc)], ?_, ?_⟩
    · simp only [addLabel, some, new, Bool.false_eq_true, if_false]
    · rw [← keeps.labels, ← keeps.pc]
      exact List.map_append

theorem addLabel_named {st : Parsed} {lineNo : Nat} {label : Option Token} {labels : Labels}
    (added : addLabel lineNo st label = .ok labels) : label ≠ some [] := by
  rintro rfl
  cases added

theorem sizeOf_org {U : Unicode} {lineNo pc p : Nat} {a : Token}
    (parsed : parseNumber U a = some (p : Int)) (low : 512 ≤ p) (high : p < 4096)
    (forwards : pc ≤ p) : sizeOf U lineNo pc (some opOrg) [a] = .ok (p - pc) := by
  have inside : ((p : Int) < pc || !((entry : Int) ≤ (p : Int) && (p : Int) < limit)) = false := by
    unfold entry limit
    simp only [Bool.or_eq_false_iff, Bool.not_eq_false', Bool.and_eq_true, decide_eq_true_eq,
      decide_eq_false_iff_not]
    omega
  simp only [sizeOf, beq_self_eq_true, if_true, parsed, inside, Bool.false_eq_true, if_false]
  rfl

theorem sizeOf_plain {U : Unicode} {lineNo pc : Nat} {op : Token} (notOrg : op ≠ opOrg)
    (args : List Token) :
    sizeOf U lineNo pc (some op) args = .ok (Asm.plainSize (op :: args)) := by
  simp only [sizeOf, beq_false_of_ne notOrg, Bool.false_eq_true, if_false, Asm.plainSize_cons,
    show Asm.dirByte = opByte from rfl, show Asm.dirWord = opWord from rfl]
  split
  · rfl
  split
  · rfl
  · rfl

theorem plainSize_encode (op : Token) (args : List Token) :
    Asm.plainSize (encode op :: args.map encode) = Asm.plainSize (op :: args) := by
  have byteText : encode op = Asm.dirByte ↔ op = Asm.dirByte := encode_eq_ascii (by decide)
  have wordText : encode op = Asm.dirWord ↔ op = Asm.dirWord := encode_eq_ascii (by decide)
  simp only [Asm.plainSize_cons, List.length_map, beq_iff_eq, byteText, wordText]

theorem sizeOf_keeps {U : Unicode} {symbols : List Symbol} {resolve : Bool} {lineNo pc size : Nat}
    {out : List Byte} {statement : List Token}
    (org : ∀ a, statement = [opOrg, a] →
      ∃ n : Nat, Asm.strtoul (encode a) = some n ∧ parseNumber U a = some (n : Int))
    (sized : Asm.lineSize (Asm.value symbols resolve) pc (statement.map encode) = .ok (size, out)) :
    sizeOf U lineNo pc statement.head? statement.tail = .ok size := by
  cases statement with
  | nil =>
    cases sized
    rfl
  | cons op args =>
    have orgText : encode op = Asm.dirOrg ↔ op = opOrg := encode_eq_ascii (by decide)
    by_cases isOrg : op = opOrg
    · obtain ⟨a, p, shape, read, low, forwards, high, rfl⟩ :=
        Asm.lineSize_org (by rw [List.map_cons, List.head?_cons, orgText.mpr isOrg]) sized
      rw [List.map_cons] at shape
      obtain ⟨-, rest⟩ := List.cons.inj shape
      obtain ⟨a', rfl, rfl⟩ := List.map_eq_singleton_iff.mp rest
      subst isOrg
      obtain ⟨n, number, parsed⟩ := org a' rfl
      have same : p = n := by
        unfold Asm.value at read
        rw [number] at read
        dsimp only at read
        split at read
        · cases read
        · exact (Except.ok.inj read).symm
      subst same
      exact sizeOf_org parsed low high forwards
    · have plain : (encode op :: args.map encode).head? ≠ some Asm.dirOrg := fun same =>
        isOrg (orgText.mp (Option.some.inj same))
      have measured := (Asm.lineSize_plain plain sized).2
      have same := plainSize_encode op args
      rw [measured]
      exact (sizeOf_plain isOrg args).trans (congrArg Except.ok same.symm)

/-! ## Parsing -/

/-- The items of a parsed statement. -/
def Statement.items (s : Statement) : List Line :=
  Line.items ⟨s.label, (s.op.toList ++ s.args)⟩

/-- Statements parsed from a text with the items `is`. -/
structure Parses (statements : List Statement) (is : List Line) : Prop where
  items : statements.flatMap Statement.items = is
  named : ∀ s ∈ statements, s.label ≠ some []
  bare : ∀ s ∈ statements, s.op = none → s.args = []

theorem items_encode (l : Line) : (encodeLine l).items = l.items.map encodeLine := by
  obtain ⟨label, statement⟩ := l
  cases label <;> cases statement <;> rfl

theorem head_tail_map {α β : Type} (f : α → β) (xs : List α) :
    (xs.head?.map f).toList ++ xs.tail.map f = xs.map f := by
  cases xs <;> rfl

theorem parseLine_keeps {U : Unicode} {st : Parsed} {layout layout' : Layout}
    (keeps : Keeps st layout) {numbered : Nat × Text}
    (org : ∀ a, ⟨none, [opOrg, a]⟩ ∈ lineItems U numbered.2 →
      ∃ n : Nat, Asm.strtoul (encode a) = some n ∧ parseNumber U a = some (n : Int))
    (fits : layout.pc ≤ memorySize)
    (laid : ((lineItems U numbered.2).map encodeLine).foldlM Asm.layoutLine layout = .ok layout') :
    ∃ st', parseLine U st numbered = .ok st' ∧ Keeps st' layout' ∧
      ∃ added, st'.statements = st.statements ++ added ∧ Parses added (lineItems U numbered.2) := by
  obtain ⟨lineNo, text⟩ := numbered
  unfold lineItems at org laid ⊢
  unfold parseLine
  dsimp only at org laid ⊢
  generalize tokens text = words at org laid ⊢
  cases words with
  | nil =>
    cases laid
    exact ⟨st, rfl, keeps, [], (List.append_nil _).symm, rfl, List.forall_mem_nil _,
      List.forall_mem_nil _⟩
  | cons w ws =>
    rw [← items_encode, ← Asm.layoutLine_items fits] at laid
    obtain ⟨defined, small, size, out, sized, pc⟩ := Asm.layoutLine_ok laid
    unfold sourceLine at org defined sized ⊢
    dsimp only [encodeLine] at org defined sized ⊢
    -- Both put the label first, then measure the statement at the same address.
    obtain ⟨labels, added, same⟩ := @addLabel_keeps st layout keeps lineNo _ _ defined
    have orgHere : ∀ a, (splitLabel U (w :: ws)).2.map (upper U) = [opOrg, a] →
        ∃ n : Nat, Asm.strtoul (encode a) = some n ∧ parseNumber U a = some (n : Int) := by
      intro a shape
      refine org a (List.mem_append_right _ ?_)
      rw [shape]
      exact List.mem_singleton.mpr rfl
    have measured := @sizeOf_keeps U _ false lineNo layout.pc size out _ orgHere sized
    rw [List.head?_map, ← List.map_tail, ← keeps.pc] at measured
    have room : ¬ st.pc + size > limit := by
      have whole : memorySize = limit := rfl
      have here := keeps.pc
      omega
    let r := splitLabel U (w :: ws)
    let new : Statement := ⟨lineNo, r.1, r.2.head?.map (upper U), r.2.tail.map (upper U), st.pc, size⟩
    refine ⟨⟨st.statements ++ [new], labels, st.pc + size⟩, ?_, ⟨?_, same⟩, [new], rfl, ?_, ?_, ?_⟩
    · simp only [List.isEmpty_cons, Bool.false_eq_true, if_false, added, bind, Except.bind,
        measured, room]
      rfl
    · show st.pc + size = layout'.pc
      rw [pc, keeps.pc]
    · rw [List.flatMap_singleton]
      unfold Statement.items
      rw [head_tail_map]
    · rw [List.forall_mem_singleton]
      exact addLabel_named added
    · rw [List.forall_mem_singleton]
      intro none
      have empty : r.2 = [] := List.head?_eq_none_iff.mp (Option.map_eq_none_iff.mp none)
      show r.2.tail.map (upper U) = []
      rw [empty]
      rfl

theorem Parses.append {before after : List Statement} {is is' : List Line}
    (first : Parses before is) (second : Parses after is') :
    Parses (before ++ after) (is ++ is') := by
  refine ⟨?_, ?_, ?_⟩
  · rw [List.flatMap_append, first.items, second.items]
  · exact List.forall_mem_append.mpr ⟨first.named, second.named⟩
  · exact List.forall_mem_append.mpr ⟨first.bare, second.bare⟩

theorem parse_keeps {U : Unicode} {numbered : List (Nat × Text)} {st : Parsed}
    {layout layout' : Layout} (keeps : Keeps st layout)
    (org : ∀ a, ⟨none, [opOrg, a]⟩ ∈ numbered.flatMap (fun r => lineItems U r.2) →
      ∃ n : Nat, Asm.strtoul (encode a) = some n ∧ parseNumber U a = some (n : Int))
    (fits : layout.pc ≤ memorySize)
    (laid : ((numbered.flatMap fun r => lineItems U r.2).map encodeLine).foldlM Asm.layoutLine
      layout = .ok layout') :
    ∃ st', numbered.foldlM (parseLine U) st = .ok st' ∧ Keeps st' layout' ∧
      ∃ added, st'.statements = st.statements ++ added ∧
        Parses added (numbered.flatMap fun r => lineItems U r.2) := by
  induction numbered generalizing st layout with
  | nil =>
    cases laid
    exact ⟨st, rfl, keeps, [], (List.append_nil _).symm, rfl, List.forall_mem_nil _,
      List.forall_mem_nil _⟩
  | cons r rest ih =>
    rw [List.flatMap_cons] at org laid ⊢
    rw [List.map_append, List.foldlM_append] at laid
    obtain ⟨middle, first, laid⟩ := Asm.bind_ok.mp laid
    obtain ⟨st₁, parsed, keeps₁, added, grown, parses⟩ := parseLine_keeps keeps
      (fun a here => org a (List.mem_append_left _ here)) fits first
    have fits₁ : middle.pc ≤ memorySize := Asm.layout_bound fits first
    obtain ⟨st', parsed', keeps', added', grown', parses'⟩ := ih keeps₁
      (fun a here => org a (List.mem_append_right _ here)) fits₁ laid
    refine ⟨st', ?_, keeps', added ++ added', ?_, parses.append parses'⟩
    · rw [List.foldlM_cons, parsed]
      exact parsed'
    · rw [grown', grown, List.append_assoc]

/-! ## Printing -/

theorem encode_cons {c : Char} (small : c.toNat < 128) (t : Text) :
    encode (c :: t) = c :: encode t := by
  show utf8 c ++ encode t = c :: encode t
  unfold utf8
  dsimp only
  rw [if_pos small]
  rfl

theorem encode_joinComma {args : List Token} (some : args ≠ []) :
    Asm.spaced (args.map encode) = ' ' :: encode (joinComma args) := by
  induction args with
  | nil => exact absurd rfl some
  | cons w args ih =>
    cases args with
    | nil => rfl
    | cons w' rest =>
      show ' ' :: encode w ++ ',' :: Asm.spaced ((w' :: rest).map encode) =
        ' ' :: encode (w ++ ',' :: ' ' :: joinComma (w' :: rest))
      rw [ih (by simp), encode_append, encode_cons (by decide), encode_cons (by decide)]
      rfl

theorem joinComma_empty {args : List Token} (words : ∀ w ∈ args, w ≠ []) :
    (joinComma args).isEmpty = args.isEmpty := by
  cases args with
  | nil => rfl
  | cons w rest =>
    have some := words w List.mem_cons_self
    cases rest with
    | nil => exact List.isEmpty_eq_false_iff.mpr some
    | cons w' rest =>
      apply List.isEmpty_eq_false_iff.mpr
      intro empty
      exact some (List.append_eq_nil_iff.mp empty).1

theorem encode_statement {op : Token} {args : List Token} (words : ∀ w ∈ args, w ≠ []) :
    encode (List.replicate 8 ' ' ++ op ++
      if (joinComma args).isEmpty then [] else ' ' :: joinComma args) =
      Asm.printStatement ((op :: args).map encode) := by
  have blanks : encode (List.replicate 8 ' ') = Asm.indentation :=
    encode_ascii fun c here => by
      rw [List.eq_of_mem_replicate here]
      decide
  show _ = Asm.indentation ++ encode op ++ Asm.spaced (args.map encode)
  rw [encode_append, encode_append, blanks, joinComma_empty words]
  cases args with
  | nil => rfl
  | cons w rest =>
    rw [encode_joinComma (by simp)]
    simp only [List.isEmpty_cons, Bool.false_eq_true, if_false]
    rw [encode_cons (by decide)]

theorem present_some {t : Token} (nonempty : t ≠ []) : present (some t) = some t := by
  cases t with
  | nil => exact absurd rfl nonempty
  | cons c cs => rfl

theorem nonempty_of_encode {t : Token} (nonempty : encode t ≠ []) : t ≠ [] := by
  rintro rfl
  exact nonempty rfl

theorem nonempty_of_isItem {ws : List Token} (item : Asm.IsItem (encodeLine ⟨none, ws⟩)) :
    ∀ w ∈ ws, w ≠ [] := by
  intro w here
  have inside : encode w ∈ ws.map encode := List.mem_map_of_mem here
  unfold encodeLine at item
  dsimp only at item
  generalize ws.map encode = encoded at item inside
  cases item with
  | statement normal _ _ => exact nonempty_of_encode (normal _ inside).word.nonempty

theorem statementLines_items {s : Statement} (named : s.label ≠ some [])
    (bare : s.op = none → s.args = [])
    (clean : ∀ item ∈ s.items, Asm.IsItem (encodeLine item)) :
    (statementLines s).map encode = s.items.map fun item => Asm.printItem (encodeLine item) := by
  unfold statementLines Statement.items Line.items at *
  rw [List.map_append, List.map_append]
  congr 1
  · cases label : s.label with
    | none => rfl
    | some name =>
      have there : name ≠ [] := fun empty => named (empty ▸ label)
      rw [present_some there]
      show [encode (name ++ [':'])] = [encode name ++ [':']]
      rw [encode_append]
      rfl
  · cases first : s.op with
    | none =>
      rw [bare first]
      rfl
    | some op =>
      rw [first] at clean
      have words := nonempty_of_isItem (clean ⟨none, op :: s.args⟩
        (List.mem_append_right _ (List.mem_singleton.mpr rfl)))
      rw [present_some (words op List.mem_cons_self)]
      exact congrArg (fun line => [line])
        (encode_statement fun w later => words w (List.mem_cons_of_mem op later))

theorem lines_items {statements : List Statement} {is : List Line}
    (parses : Parses statements is) (clean : ∀ item ∈ is, Asm.IsItem (encodeLine item)) :
    (statements.flatMap statementLines).map encode =
      (is.map encodeLine).map Asm.printItem := by
  obtain ⟨rfl, named, bare⟩ := parses
  induction statements with
  | nil => rfl
  | cons s rest ih =>
    rw [List.flatMap_cons] at clean ⊢
    have here := statementLines_items (named s List.mem_cons_self) (bare s List.mem_cons_self)
      fun item inside => clean item (List.mem_append_left _ inside)
    have later := ih (fun s' inside => named s' (List.mem_cons_of_mem s inside))
      (fun s' inside => bare s' (List.mem_cons_of_mem s inside))
      fun item inside => clean item (List.mem_append_right _ inside)
    rw [List.map_append, here, later, List.flatMap_cons, List.map_append, List.map_append]
    congr 1
    rw [List.map_map]
    rfl

theorem encode_joinLines {lines : List Text} (some : lines ≠ []) :
    encode (joinLines lines ++ ['\n']) =
      ((lines.map encode).map (· ++ ['\n'])).flatten := by
  induction lines with
  | nil => exact absurd rfl some
  | cons l rest ih =>
    cases rest with
    | nil =>
      show encode (l ++ ['\n']) = _
      rw [encode_append]
      simp only [List.map_cons, List.map_nil, List.flatten_cons, List.flatten_nil, List.append_nil]
      rfl
    | cons l' rest =>
      show encode (l ++ '\n' :: joinLines (l' :: rest) ++ ['\n']) = _
      rw [List.append_assoc, List.cons_append, encode_append, encode_cons (by decide),
        ih (by simp)]
      simp only [List.map_cons, List.flatten_cons, List.append_assoc, List.cons_append, List.nil_append]

theorem reads_canonical {statements : List Statement} {is : List Line}
    (parses : Parses statements is) (clean : ∀ item ∈ is, Asm.IsItem (encodeLine item))
    (short : ∀ item ∈ is, (Asm.printItem (encodeLine item)).length ≤ 1023) :
    ∃ lines, Reads (fgets (encode (canonicalize statements))) lines ∧
      items lines = is.map encodeLine := by
  have lines := lines_items parses clean
  have encoded {l : Line} (here : l ∈ is.map encodeLine) : ∃ item ∈ is, encodeLine item = l :=
    List.mem_map.mp here
  unfold canonicalize
  by_cases empty : statements.flatMap statementLines = []
  · rw [empty] at lines ⊢
    have nothing : is.map encodeLine = [] := List.map_eq_nil_iff.mp lines.symm
    rw [nothing]
    exact ⟨[⟨none, []⟩], .cons rfl .nil, rfl⟩
  · rw [encode_joinLines empty, lines]
    apply Asm.reads_printed_items
    · intro l here
      obtain ⟨item, inside, rfl⟩ := encoded here
      exact clean item inside
    · intro l here
      obtain ⟨item, inside, rfl⟩ := encoded here
      exact short item inside

theorem assemble_canonical_iff {statements : List Statement} {is : List Line}
    (parses : Parses statements is) (clean : ∀ item ∈ is, Asm.IsItem (encodeLine item))
    (short : ∀ item ∈ is, (Asm.printItem (encodeLine item)).length ≤ 1023) {bytes : List Byte} :
    Asm.assemble (encode (canonicalize statements)) = .ok bytes ↔
      ∃ layout, Asm.Assembles (is.map encodeLine) layout bytes := by
  obtain ⟨lines, reads, same⟩ := reads_canonical parses clean short
  constructor
  · intro accepted
    obtain ⟨lines', layout, reads', assembles⟩ := Asm.assemble_ok.mp accepted
    rw [Asm.reads_unique reads' reads, same] at assembles
    exact ⟨layout, assembles⟩
  · rintro ⟨layout, assembles⟩
    exact Asm.assemble_ok.mpr ⟨lines, layout, reads, same ▸ assembles⟩

theorem flatMap_numbered {α β : Type} (f : α → List β) (xs : List α) (k : Nat) :
    ((xs.zipIdx k).map fun r => (r.2 + 1, r.1)).flatMap (fun r => f r.2) = xs.flatMap f := by
  induction xs generalizing k with
  | nil => rfl
  | cons x xs ih =>
    rw [List.zipIdx_cons, List.map_cons, List.flatMap_cons, List.flatMap_cons, ih]

/-- Where the front ends agree on an accepted text, `parse_source` accepts it with the
labels of the first pass, and its statements are what the assembler sees. -/
theorem parseSource_same (U : Unicode) {text : Text} {bytes : List Byte}
    (accepted : Asm.assemble (encode text) = .ok bytes) (same : SameReading U text) :
    ∃ statements labels layout, parseSource U text = .ok (statements, labels) ∧
      Asm.firstPass (encode text) = .ok layout ∧ encodeLabels labels = layout.symbols ∧
      Parses statements (sourceItems U text) ∧
      (∀ item ∈ sourceItems U text, Asm.IsItem (encodeLine item)) ∧
      Asm.Assembles ((sourceItems U text).map encodeLine) layout bytes := by
  obtain ⟨lines, layout, reads, assembles⟩ := Asm.assemble_ok.mp accepted
  obtain ⟨lines', reads', words⟩ := same.words
  obtain rfl := Asm.reads_unique reads reads'
  have isItem := Asm.isItem_of_assembles reads assembles
  have clean : ∀ item ∈ sourceItems U text, Asm.IsItem (encodeLine item) := fun item here =>
    isItem _ (words ▸ List.mem_map_of_mem here)
  have first : Asm.firstPass (encode text) = .ok layout :=
    Asm.firstPass_ok.mpr ⟨lines, reads, assembles.first⟩
  rw [words] at assembles
  let numbered := (splitlines text).zipIdx.map fun r => (r.2 + 1, r.1)
  have shape : numbered.flatMap (fun r => lineItems U r.2) = sourceItems U text :=
    flatMap_numbered (lineItems U) (splitlines text) 0
  have start : Keeps ⟨[], [], entry⟩ .start := ⟨rfl, rfl⟩
  obtain ⟨st, parsed, keeps, statements, grown, parses⟩ :=
    parse_keeps start (shape ▸ same.org) (by decide) (shape ▸ assembles.first)
  rw [shape] at parses
  rw [List.nil_append] at grown
  refine ⟨statements, st.labels, layout, ?_, first, keeps.labels, parses, clean, assembles⟩
  rw [← grown]
  show (numbered.foldlM (parseLine U) ⟨[], [], entry⟩ >>= fun st => _) = _
  rw [parsed]
  rfl

/-- Canonicalization keeps labels and bytes of a text the two front ends read alike.

Where they do not, a comment sign glued to a word, a line longer than the buffer of
`fgets`, a form feed or a symbolic `.ORG` each can make the ROM another one. -/
theorem canonicalize_same (U : Unicode) {text : Text} {bytes : List Byte}
    (accepted : Asm.assemble (encode text) = .ok bytes) (same : SameReading U text) :
    ∃ statements labels layout, parseSource U text = .ok (statements, labels) ∧
      Asm.firstPass (encode text) = .ok layout ∧ encodeLabels labels = layout.symbols ∧
      Asm.assemble (encode (canonicalize statements)) = .ok bytes := by
  obtain ⟨statements, labels, layout, parsed, first, named, parses, clean, assembles⟩ :=
    parseSource_same U accepted same
  exact ⟨statements, labels, layout, parsed, first, named,
    (assemble_canonical_iff parses clean same.short).mpr ⟨layout, assembles⟩⟩

/-- A label, a comment and an `.ORG`. -/
def orgText : Text := "a: jp A ; x\n.org 0x204\n.byte 1,2".toList

theorem canonicalize_same_orgText :
    Asm.assemble (encode orgText) = .ok [0x12, 0x00, 0, 0, 1, 2] ∧ SameReading ascii orgText ∧
    ∃ statements labels layout, parseSource ascii orgText = .ok (statements, labels) ∧
      Asm.firstPass (encode orgText) = .ok layout ∧ encodeLabels labels = layout.symbols ∧
      Asm.assemble (encode (canonicalize statements)) = .ok [0x12, 0x00, 0, 0, 1, 2] := by
  have accepted : Asm.assemble (encode orgText) = .ok [0x12, 0x00, 0, 0, 1, 2] := by
    decide +kernel
  have read : sourceItems ascii orgText = [⟨some ['A'], []⟩, ⟨none, ["JP".toList, ['A']]⟩,
      ⟨none, [opOrg, "0X204".toList]⟩, ⟨none, [opByte, ['1'], ['2']]⟩] := by
    decide +kernel
  have same : SameReading ascii orgText := by
    refine ⟨⟨[⟨some ['A'], ["JP".toList, ['A']]⟩, ⟨none, [opOrg, "0X204".toList]⟩,
      ⟨none, [opByte, ['1'], ['2']]⟩], ?_, ?_⟩, ?_, ?_⟩
    · exact .cons rfl (.cons rfl (.cons rfl .nil))
    · rw [read]
      decide
    · rw [read]
      intro a here
      have only : a = "0X204".toList := by
        simpa [opOrg, opByte] using here
      rw [only]
      exact ⟨0x204, by decide, by decide⟩
    · rw [read]
      decide
  exact ⟨accepted, same, canonicalize_same ascii accepted same⟩

/-- A comment sign behind a word ends the line for `parse_source` only. -/
theorem canonicalize_drops_glued :
    Asm.assemble (encode ".BYTE 1;2".toList) = .ok [1, 2] ∧
      (parseSource ascii ".BYTE 1;2".toList).map (fun parsed =>
        Asm.assemble (encode (canonicalize parsed.1))) = .ok (.ok [1]) := by
  decide

end ChipEight.Opt
