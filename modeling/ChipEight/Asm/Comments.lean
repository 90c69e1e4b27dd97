import ChipEight.Asm.Items

/-! Comments and what the assembler reads.

The assembler sees the lists of words of its lines, the empty ones left out. A comment
leaves them alone if its sign stands between words, or ends the last word of what is in the
buffer; and if what `fgets` returns of the line later on holds no words.
-/

set_option autoImplicit false

namespace ChipEight.Asm

/-! ## Lines -/

/-- The lines of a file that end with a newline, and what follows the last of them. -/
def brokenFrom (cur : Text) : Text → List Text × Text
  | [] => ([], cur)
  | c :: cs =>
    if c == '\n' then
      let r := brokenFrom [] cs
      (cur :: r.1, r.2)
    else brokenFrom (cur ++ [c]) cs

def broken (file : Text) : List Text × Text := brokenFrom [] file

/-- A line up to its first comment sign. -/
def uncommented (line : Text) : Text := line.takeWhile fun c => !isComment c

def withoutComments (file : Text) : Text :=
  ((broken file).1.map fun line => uncommented line ++ ['\n']).flatten ++ (broken file).2

/-- The words of the buffers that have any. -/
def said (texts : List Text) : List (List Token) :=
  (texts.map fun text => words [] (cString text)).filter fun ws => !ws.isEmpty

/-- No word begins in a text. -/
def Wordless (text : Text) : Prop :=
  ∀ c ∈ text.takeWhile fun c => c != '\x00' && !isComment c, isBlank c = true

instance (text : Text) : Decidable (Wordless text) :=
  List.decidableBAll _ _

/-- A comment says nothing, given the buffers from the one with its sign on: behind a sign that
ends a word there is no word in the buffer, and none in those behind it. -/
def SaysNothing : List Text → Prop
  | [] => True
  | text :: later =>
    ('\x00' ∈ uncommented text ∨ (∀ c ∈ (uncommented text).getLast?, isBlank c = true) ∨
      Wordless (text.dropWhile fun c => !isComment c).tail) ∧
    ∀ text ∈ later, Wordless text

instance : DecidablePred SaysNothing
  | [] => inferInstanceAs (Decidable True)
  | text :: _ =>
    have : Decidable (∀ c ∈ (uncommented text).getLast?, isBlank c = true) :=
      decidable_of_iff _ (Option.all_eq_true _ _)
    inferInstanceAs (Decidable ((_ ∨ _ ∨ _) ∧ _))

/-- The comment of a line says nothing in the first `n` buffers of it. -/
def Silent (n : Nat) (line : Text) : Prop :=
  SaysNothing (((fgets (line ++ ['\n'])).take n).dropWhile fun text => !text.any isComment)

instance (n : Nat) (line : Text) : Decidable (Silent n line) :=
  inferInstanceAs (Decidable (SaysNothing _))

/-- The comments of lines say nothing in the first `n` buffers of them. -/
def AllSilent : Nat → List Text → Prop
  | _, [] => True
  | n, line :: lines =>
    Silent n line ∧ AllSilent (n - (fgets (line ++ ['\n'])).length) lines

instance decidableAllSilent : (n : Nat) → (lines : List Text) → Decidable (AllSilent n lines)
  | _, [] => inferInstanceAs (Decidable True)
  | n, line :: lines =>
    have := decidableAllSilent (n - (fgets (line ++ ['\n'])).length) lines
    inferInstanceAs (Decidable (Silent n line ∧ AllSilent _ lines))

/-- How many buffers the first pass reads: it stops at the first that fails. -/
def buffersRead (file : Text) : Nat :=
  match firstPass file with
  | .ok _ => (fgets file).length
  | .error e => e.lineNumber

/-! ## What is read -/

theorem reads_iff {texts : List Text} {lines : List Line} :
    Reads texts lines ↔ (∀ text ∈ texts, (words [] (cString text)).length ≤ maxTokens) ∧
      lines = texts.map fun text => splitLabel ((words [] (cString text)).map normalize) := by
  have one (text : Text) (l : Line) : readLine text = .ok l ↔
      (words [] (cString text)).length ≤ maxTokens ∧
        l = splitLabel ((words [] (cString text)).map normalize) := by
    unfold readLine tokenize
    dsimp only
    by_cases many : (words [] (cString text)).length > maxTokens
    · rw [if_pos many]
      exact ⟨nofun, fun few => absurd few.1 (Nat.not_le.mpr many)⟩
    · rw [if_neg many]
      exact ⟨fun same => ⟨Nat.not_lt.mp many, (Except.ok.inj same).symm⟩,
        fun same => congrArg Except.ok same.2.symm⟩
  induction texts generalizing lines with
  | nil =>
    constructor
    · intro reads
      cases reads
      exact ⟨nofun, rfl⟩
    · rintro ⟨-, rfl⟩
      exact .nil
  | cons text texts ih =>
    rw [List.forall_mem_cons, List.map_cons]
    constructor
    · intro reads
      cases reads with
      | cons read rest =>
        obtain ⟨few, rfl⟩ := (one text _).mp read
        obtain ⟨others, rfl⟩ := ih.mp rest
        exact ⟨⟨few, others⟩, rfl⟩
    · rintro ⟨⟨few, others⟩, rfl⟩
      exact .cons ((one text _).mpr ⟨few, rfl⟩) (ih.mpr ⟨others, rfl⟩)

theorem items_words (texts : List Text) :
    items (texts.map fun text => splitLabel ((words [] (cString text)).map normalize)) =
      (said texts).flatMap fun ws => (splitLabel (ws.map normalize)).items := by
  unfold said
  induction texts with
  | nil => rfl
  | cons text texts ih =>
    rw [List.map_cons, items_cons, ih, List.map_cons, List.filter_cons]
    cases words [] (cString text) with
    | nil => rfl
    | cons w ws => rfl

theorem said_append (texts more : List Text) : said (texts ++ more) = said texts ++ said more := by
  unfold said
  rw [List.map_append, List.filter_append]

/-- No line has too many words, and the first pass makes a layout of them. -/
structure Lays (ws : List (List Token)) (layout : Layout) : Prop where
  few : ∀ w ∈ ws, w.length ≤ maxTokens
  laid : (ws.flatMap fun w => (splitLabel (w.map normalize)).items).foldlM layoutLine .start =
    .ok layout

theorem few_said {texts : List Text} : (∀ ws ∈ said texts, ws.length ≤ maxTokens) ↔
    ∀ text ∈ texts, (words [] (cString text)).length ≤ maxTokens := by
  constructor
  · intro all text here
    by_cases empty : words [] (cString text) = []
    · rw [empty]
      exact Nat.zero_le _
    · refine all _ (List.mem_filter.mpr ⟨List.mem_map_of_mem here, ?_⟩)
      rw [List.isEmpty_eq_false_iff.mpr empty]
      rfl
  · intro all ws here
    obtain ⟨text, inside, rfl⟩ := List.mem_map.mp (List.mem_filter.mp here).1
    exact all text inside

theorem firstPass_said {texts : List Text} {layout : Layout} :
    eachLine layoutLine 1 .start texts = .ok layout ↔ Lays (said texts) layout := by
  have room : Layout.start.pc ≤ memorySize := by decide
  rw [eachLine_ok]
  constructor
  · rintro ⟨lines, reads, laid⟩
    obtain ⟨short, rfl⟩ := reads_iff.mp reads
    rw [layout_items room, items_words] at laid
    exact ⟨few_said.mpr short, laid⟩
  · rintro ⟨few, laid⟩
    refine ⟨_, reads_iff.mpr ⟨few_said.mp few, rfl⟩, ?_⟩
    rw [layout_items room, items_words]
    exact laid

theorem Lays.front {ws more : List (List Token)} {layout : Layout} (lays : Lays (ws ++ more) layout) :
    ∃ front, Lays ws front := by
  obtain ⟨few, laid⟩ := lays
  rw [List.flatMap_append, List.foldlM_append] at laid
  obtain ⟨front, first, -⟩ := bind_ok.mp laid
  exact ⟨front, fun w here => few w (List.mem_append_left more here), first⟩

theorem assemble_said_iff {file : Text} {bytes : List Byte} :
    assemble file = .ok bytes ↔ (∀ ws ∈ said (fgets file), ws.length ≤ maxTokens) ∧
      ∃ layout, Assembles ((said (fgets file)).flatMap fun ws =>
        (splitLabel (ws.map normalize)).items) layout bytes := by
  rw [assemble_ok, few_said]
  constructor
  · rintro ⟨lines, layout, reads, assembles⟩
    obtain ⟨short, rfl⟩ := reads_iff.mp reads
    rw [items_words] at assembles
    exact ⟨short, layout, assembles⟩
  · rintro ⟨short, layout, assembles⟩
    refine ⟨_, layout, reads_iff.mpr ⟨short, rfl⟩, ?_⟩
    rw [items_words]
    exact assembles

theorem assemble_said {file file' : Text} (same : said (fgets file) = said (fgets file')) :
    (assemble file).toOption = (assemble file').toOption := by
  have accepted (f : Text) (bytes : List Byte) :
      (assemble f).toOption = some bytes ↔ assemble f = .ok bytes := by
    cases assemble f with
    | error _ => exact ⟨nofun, nofun⟩
    | ok b => exact ⟨fun h => congrArg _ (Option.some.inj h), fun h => congrArg _ (Except.ok.inj h)⟩
  apply Option.ext
  intro bytes
  rw [accepted, accepted, assemble_said_iff, assemble_said_iff, same]

theorem assemble_rejects {file : Text} (fails : ∀ layout, firstPass file ≠ .ok layout) :
    (assemble file).toOption = none := by
  unfold assemble
  cases first : firstPass file with
  | error e => rfl
  | ok layout => exact absurd first (fails layout)

theorem eachLine_error {S : Type} {step : S → Line → Except Problem S} {n : Nat} {st : S}
    {texts : List Text} {e : Failure} (looped : eachLine step n st texts = .error e) :
    n ≤ e.lineNumber ∧ ∀ st', eachLine step n st (texts.take (e.lineNumber + 1 - n)) ≠ .ok st' := by
  induction texts generalizing n st with
  | nil => cases looped
  | cons text rest ih =>
    -- Where the line itself fails, that line is the last one read.
    have stops {p : Problem} (reported : e = ⟨n, p⟩)
        (fails : ∀ st', eachLine step n st [text] ≠ .ok st') :
        n ≤ e.lineNumber ∧
          ∀ st', eachLine step n st ((text :: rest).take (e.lineNumber + 1 - n)) ≠ .ok st' := by
      have here : e.lineNumber = n := congrArg Failure.lineNumber reported
      rw [here, Nat.add_sub_cancel_left, List.take_succ_cons, List.take_zero]
      exact ⟨Nat.le_refl n, fails⟩
    unfold eachLine at looped
    split at looped
    · rename_i p unread
      refine stops (Except.error.inj looped).symm fun st' => ?_
      unfold eachLine
      rw [unread]
      intro same
      cases same
    · rename_i l read
      split at looped
      · rename_i p failed
        refine stops (Except.error.inj looped).symm fun st' => ?_
        unfold eachLine
        rw [read]
        dsimp only
        rw [failed]
        intro same
        cases same
      · rename_i st₁ stepped
        obtain ⟨later, fails⟩ := ih looped
        refine ⟨Nat.le_of_succ_le later, fun st' => ?_⟩
        rw [show e.lineNumber + 1 - n = e.lineNumber + 1 - (n + 1) + 1 by omega, List.take_succ_cons]
        unfold eachLine
        rw [read]
        dsimp only
        rw [stepped]
        exact fails st'

/-! ## Lines of a file -/

theorem fgetsFrom_append (cur text more : Text) :
    fgetsFrom cur (text ++ '\n' :: more) = fgetsFrom cur (text ++ ['\n']) ++ fgetsFrom [] more := by
  induction text generalizing cur with
  | nil =>
    rw [List.nil_append, List.nil_append, fgetsFrom, fgetsFrom]
    rfl
  | cons c cs ih =>
    rw [List.cons_append, List.cons_append, fgetsFrom, fgetsFrom]
    split
    · rw [ih, List.cons_append]
    · exact ih _

theorem fgets_lines (lines : List Text) (rest : Text) :
    fgets ((lines.map fun line => line ++ ['\n']).flatten ++ rest) =
      (lines.flatMap fun line => fgets (line ++ ['\n'])) ++ fgets rest := by
  unfold fgets
  induction lines with
  | nil => rfl
  | cons line lines ih =>
    rw [List.map_cons, List.flatten_cons, List.append_assoc, List.append_assoc,
      List.singleton_append, fgetsFrom_append, ih, List.flatMap_cons, List.append_assoc]

theorem brokenFrom_whole (cur file : Text) :
    ((brokenFrom cur file).1.map fun line => line ++ ['\n']).flatten ++ (brokenFrom cur file).2 =
      cur ++ file := by
  induction file generalizing cur with
  | nil => exact (List.append_nil cur).symm
  | cons c cs ih =>
    unfold brokenFrom
    split
    · rename_i isNewline
      rw [beq_iff_eq.mp isNewline]
      dsimp only
      rw [List.map_cons, List.flatten_cons, List.append_assoc, ih [], List.nil_append,
        List.append_assoc]
      rfl
    · rw [ih, List.append_assoc]
      rfl

theorem brokenFrom_one {cur file : Text} (clean : '\n' ∉ cur) :
    ∀ line ∈ (brokenFrom cur file).1, '\n' ∉ line := by
  induction file generalizing cur with
  | nil => exact nofun
  | cons c cs ih =>
    unfold brokenFrom
    split
    · exact List.forall_mem_cons.mpr ⟨clean, ih List.not_mem_nil⟩
    · rename_i other
      refine ih fun here => ?_
      obtain old | new := List.mem_append.mp here
      · exact clean old
      · exact other (beq_iff_eq.mpr (List.mem_singleton.mp new).symm)

/-! ## Words around a sign -/

theorem words_begun {cur : Token} (begun : cur ≠ []) (text : Text) : words cur text ≠ [] := by
  induction text generalizing cur with
  | nil =>
    rw [words, if_neg (by rwa [List.isEmpty_iff])]
    exact List.cons_ne_nil _ _
  | cons c cs ih =>
    rw [words, if_neg (by rwa [List.isEmpty_iff])]
    split
    · exact List.cons_ne_nil _ _
    · exact ih (by simp)

theorem wordless_iff (text : Text) : Wordless text ↔ words [] (cString text) = [] := by
  unfold Wordless cString
  induction text with
  | nil => exact ⟨fun _ => rfl, fun _ _ here => absurd here List.not_mem_nil⟩
  | cons c cs ih =>
    rw [List.takeWhile_cons, List.takeWhile_cons]
    by_cases nul : (c != '\x00') = true
    · rw [if_pos nul, words, List.isEmpty_nil, if_pos rfl, nul, Bool.true_and]
      by_cases sign : isComment c = true
      · rw [sign, if_pos rfl]
        exact ⟨fun _ => rfl, fun _ _ here => absurd here List.not_mem_nil⟩
      · rw [Bool.not_eq_true _ |>.mp sign, if_neg Bool.false_ne_true, Bool.not_false, if_pos rfl,
          List.forall_mem_cons, ih]
        by_cases blank : isBlank c = true
        · rw [if_pos blank]
          exact and_iff_right blank
        · rw [if_neg blank]
          constructor
          · exact fun all => absurd all.1 blank
          · exact fun none => absurd none (words_begun (List.cons_ne_nil c []) _)
    · rw [if_neg nul, Bool.not_eq_true _ |>.mp nul, Bool.false_and, if_neg Bool.false_ne_true]
      exact ⟨fun _ => rfl, fun _ _ here => absurd here List.not_mem_nil⟩

/-- A word is being read at the end of a text. -/
def unfinished (cur : Token) (text : Text) : Bool :=
  match text.getLast? with
  | none => !cur.isEmpty
  | some c => !isBlank c

theorem unfinished_iff (text : Text) :
    unfinished [] text = false ↔ ∀ c ∈ text.getLast?, isBlank c = true := by
  unfold unfinished
  cases text.getLast? with
  | none => exact ⟨fun _ => nofun, fun _ => rfl⟩
  | some d =>
    constructor
    · rintro ends c ⟨⟩
      exact Bool.not_eq_false' .. |>.mp ends
    · exact fun all => Bool.not_eq_false' .. |>.mpr (all d rfl)

theorem unfinished_cons (cur : Token) (c : Char) (text : Text) (begun : Token)
    (same : begun.isEmpty = isBlank c) : unfinished cur (c :: text) = unfinished begun text := by
  unfold unfinished
  rw [List.getLast?_cons]
  cases text.getLast? with
  | none => rw [same]; rfl
  | some d => rfl

theorem words_plain {c : Char} (plain : isComment c = false) (cur : Token) (cs : Text) :
    words cur (c :: cs) =
      if isBlank c then (if cur.isEmpty then [] else [cur]) ++ words [] cs
      else words (cur ++ [c]) cs := by
  rw [words, plain, Bool.or_false, if_neg Bool.false_ne_true]
  cases cur with
  | nil => rfl
  | cons d ds => rfl

theorem words_sign {cur : Token} {text rest : Text} {sign : Char}
    (clean : ∀ c ∈ text, isComment c = false) (isSign : isComment sign = true) :
    words cur (text ++ sign :: rest) =
      words cur text ++ if unfinished cur text then words [] rest else [] := by
  induction text generalizing cur with
  | nil =>
    rw [List.nil_append, words, words, isSign, Bool.or_true, if_pos rfl, if_pos rfl]
    unfold unfinished
    cases cur with
    | nil => rfl
    | cons c cs => rfl
  | cons c cs ih =>
    obtain ⟨plain, clean⟩ := List.forall_mem_cons.mp clean
    rw [List.cons_append, words_plain plain, words_plain plain]
    by_cases blank : isBlank c = true
    · rw [if_pos blank, if_pos blank, ih clean, unfinished_cons cur c cs [] (by rw [blank]; rfl),
        List.append_assoc]
    · rw [if_neg blank, if_neg blank, ih clean,
        unfinished_cons cur c cs (cur ++ [c]) (by simp [blank])]

theorem words_unfinished {cur : Token} {text : Text} (clean : ∀ c ∈ text, isComment c = false)
    (going : unfinished cur text = true) : words cur text ≠ [] := by
  induction text generalizing cur with
  | nil =>
    unfold unfinished at going
    exact words_begun (by rintro rfl; cases going) []
  | cons c cs ih =>
    obtain ⟨plain, clean⟩ := List.forall_mem_cons.mp clean
    rw [words_plain plain]
    by_cases blank : isBlank c = true
    · rw [unfinished_cons cur c cs [] (by rw [blank]; rfl)] at going
      rw [if_pos blank]
      exact List.append_ne_nil_of_right_ne_nil _ (ih clean going)
    · rw [if_neg blank]
      exact words_begun (by simp) cs

theorem cString_cut {text : Text} (nul : '\x00' ∈ text) (more : Text) :
    cString (text ++ more) = cString text := by
  unfold cString
  rw [List.takeWhile_append, if_neg]
  intro whole
  have same := (List.takeWhile_prefix _).eq_of_length whole
  exact absurd rfl (bne_iff_ne.mp (List.takeWhile_eq_self_iff.mp same _ nul))

theorem words_cString_sign {kept rest : Text} {sign : Char}
    (clean : ∀ c ∈ kept, isComment c = false) (isSign : isComment sign = true) :
    words [] (cString (kept ++ sign :: rest)) = words [] (cString kept) ++
      if '\x00' ∈ kept ∨ unfinished [] kept = false then [] else words [] (cString rest) := by
  have solid : sign ≠ '\x00' := by
    rintro rfl
    cases isSign
  by_cases nul : '\x00' ∈ kept
  · rw [cString_cut nul, if_pos (.inl nul), List.append_nil]
  · have cut : cString (kept ++ sign :: rest) = kept ++ sign :: cString rest := by
      unfold cString
      rw [List.takeWhile_append_of_pos, List.takeWhile_cons, if_pos (bne_iff_ne.mpr solid)]
      intro c here
      exact bne_iff_ne.mpr fun same => nul (same ▸ here)
    rw [cut, words_sign clean isSign, cString_clean nul]
    cases unfinished [] kept with
    | false => rw [if_neg Bool.false_ne_true, if_pos (Or.inr rfl)]
    | true => rw [if_pos rfl, if_neg fun cut => cut.elim nul nofun]

/-! ## Buffers of a line -/

/-- What is in the buffer where a line has been read so far. -/
def buffered (cur : Text) : Text → Text
  | [] => cur
  | c :: cs => if cur.length + 2 == maxLine then buffered [] cs else buffered (cur ++ [c]) cs

theorem mem_buffered {c : Char} {cur text : Text} (here : c ∈ buffered cur text) :
    c ∈ cur ∨ c ∈ text := by
  induction text generalizing cur with
  | nil => exact .inl here
  | cons d ds ih =>
    unfold buffered at here
    split at here
    · exact .inr (List.mem_cons_of_mem d ((ih here).resolve_left List.not_mem_nil))
    · obtain old | later := ih here
      · rw [List.mem_append, List.mem_singleton] at old
        exact old.imp_right fun same => List.mem_cons.mpr (.inl same)
      · exact .inr (List.mem_cons_of_mem d later)

theorem fgetsFrom_before {before : Text} (one : '\n' ∉ before) (cur : Text) :
    ∃ chunks, (∀ text ∈ chunks, ∀ c ∈ text, c ∈ cur ∨ c ∈ before) ∧ ∀ more,
      fgetsFrom cur (before ++ more) = chunks ++ fgetsFrom (buffered cur before) more := by
  induction before generalizing cur with
  | nil => exact ⟨[], nofun, fun _ => rfl⟩
  | cons c cs ih =>
    obtain ⟨notNewline, one⟩ := List.ne_and_not_mem_of_not_mem_cons one
    unfold buffered
    split
    · rename_i full
      obtain ⟨chunks, among, reads⟩ := ih one []
      refine ⟨(cur ++ [c]) :: chunks, ?_, fun more => ?_⟩
      · refine List.forall_mem_cons.mpr ⟨fun d inside => ?_, fun text here d inside => ?_⟩
        · rw [List.mem_append, List.mem_singleton] at inside
          exact inside.imp_right fun same => List.mem_cons.mpr (.inl same)
        · exact .inr (List.mem_cons_of_mem c
            ((among text here d inside).resolve_left List.not_mem_nil))
      · rw [List.cons_append, fgetsFrom, full, Bool.or_true, if_pos rfl, reads, List.cons_append]
    · rename_i room
      obtain ⟨chunks, among, reads⟩ := ih one (cur ++ [c])
      refine ⟨chunks, fun text here d inside => ?_, fun more => ?_⟩
      · obtain old | new := among text here d inside
        · rw [List.mem_append, List.mem_singleton] at old
          exact old.imp_right fun same => List.mem_cons.mpr (.inl same)
        · exact .inr (List.mem_cons_of_mem c new)
      · rw [List.cons_append, fgetsFrom, beq_false_of_ne notNewline.symm, Bool.false_or,
          if_neg room, reads]

theorem fgetsFrom_first (cur : Text) (c : Char) (text : Text) :
    ∃ rest later, fgetsFrom cur (c :: text) = (cur ++ c :: rest) :: later := by
  induction text generalizing cur c with
  | nil =>
    rw [fgetsFrom]
    split
    · exact ⟨[], _, rfl⟩
    · rw [fgetsFrom, if_neg (by simp)]
      exact ⟨[], _, rfl⟩
  | cons d ds ih =>
    rw [fgetsFrom]
    split
    · exact ⟨[], _, rfl⟩
    · obtain ⟨rest, later, reads⟩ := ih (cur ++ [c]) d
      rw [reads, List.append_assoc]
      exact ⟨d :: rest, later, rfl⟩

/-- The buffers of a line that has a comment, and those of the line without it. -/
structure Cut (line : Text) (chunks : List Text) (kept : Text) (sign : Char) (rest : Text)
    (later : List Text) : Prop where
  isSign : isComment sign = true
  clean : ∀ text ∈ kept :: chunks, ∀ c ∈ text, isComment c = false
  long : fgets (line ++ ['\n']) = chunks ++ (kept ++ sign :: rest) :: later
  short : fgets (uncommented line ++ ['\n']) = chunks ++ [kept ++ ['\n']]

theorem cut_or_clean {line : Text} (one : '\n' ∉ line) :
    (uncommented line = line ∧ ∀ c ∈ line, isComment c = false) ∨
      ∃ chunks kept sign rest later, Cut line chunks kept sign rest later := by
  have whole : uncommented line ++ line.dropWhile (fun c => !isComment c) = line :=
    List.takeWhile_append_dropWhile
  have clean : ∀ c ∈ uncommented line, isComment c = false := by
    intro c here
    have plain := List.mem_takeWhile_imp (p := fun c => !isComment c) here
    exact Bool.not_eq_true' _ |>.mp plain
  have oneBefore : '\n' ∉ uncommented line := fun here =>
    one ((List.takeWhile_prefix _).subset here)
  -- Either there is no sign at all, or the line has a first one.
  cases tail : line.dropWhile (fun c => !isComment c) with
  | nil =>
    rw [tail, List.append_nil] at whole
    exact .inl ⟨whole, whole ▸ clean⟩
  | cons sign comment =>
    right
    have isSign : isComment sign = true := by
      have head := List.head?_dropWhile_not (fun c => !isComment c) line
      rw [tail] at head
      exact Bool.not_eq_false' .. |>.mp head
    -- Up to the sign fgets fills the same buffers whether it is there or not.
    obtain ⟨chunks, among, reads⟩ := fgetsFrom_before oneBefore []
    obtain ⟨rest, later, first⟩ :=
      fgetsFrom_first (buffered [] (uncommented line)) sign (comment ++ ['\n'])
    refine ⟨chunks, buffered [] (uncommented line), sign, rest, later, isSign, ?_, ?_, reads _⟩
    · refine List.forall_mem_cons.mpr ⟨fun c here => ?_, fun text here c inside => ?_⟩
      · exact clean c ((mem_buffered here).resolve_left List.not_mem_nil)
      · exact clean c ((among text here c inside).resolve_left List.not_mem_nil)
    · have split : line ++ ['\n'] = uncommented line ++ sign :: (comment ++ ['\n']) := by
        conv => lhs; rw [← whole, tail, List.append_assoc]
        rfl
      rw [split, ← first]
      exact reads _

theorem signless {texts : List Text} (clean : ∀ text ∈ texts, ∀ c ∈ text, isComment c = false) :
    texts.dropWhile (fun text => !text.any isComment) = [] := by
  rw [List.dropWhile_eq_nil_iff]
  intro text here
  rw [Bool.not_eq_true', List.any_eq_false]
  intro c inside
  rw [clean text here c inside]
  exact Bool.false_ne_true

theorem uncommented_sign {kept rest : Text} {sign : Char}
    (clean : ∀ c ∈ kept, isComment c = false) (isSign : isComment sign = true) :
    uncommented (kept ++ sign :: rest) = kept ∧
      (kept ++ sign :: rest).dropWhile (fun c => !isComment c) = sign :: rest := by
  have plain : ∀ c ∈ kept, (!isComment c) = true := fun c here => by
    rw [clean c here]
    rfl
  constructor
  · unfold uncommented
    rw [List.takeWhile_append_of_pos plain, List.takeWhile_cons, isSign]
    exact List.append_nil kept
  · rw [List.dropWhile_append_of_pos plain, List.dropWhile_cons, isSign]
    rfl

theorem said_more {kept extra : List Token} {later : List (List Token)}
    (begun : extra ≠ [] → kept ≠ []) :
    (((kept ++ extra) :: later).filter fun ws => !ws.isEmpty) =
        ([kept].filter fun ws => !ws.isEmpty) ↔
      extra = [] ∧ ∀ ws ∈ later, ws = [] := by
  have none : (later.filter fun ws => !ws.isEmpty) = [] ↔ ∀ ws ∈ later, ws = [] := by
    simp only [List.filter_eq_nil_iff, Bool.not_eq_true', Bool.not_eq_false, List.isEmpty_iff]
  cases kept with
  | nil =>
    have nothing : extra = [] := by
      by_contra some
      exact begun some rfl
    rw [nothing]
    exact none.trans (and_iff_right rfl).symm
  | cons w ws =>
    have longer : (!(w :: ws ++ extra).isEmpty) = true := rfl
    have some : (!(w :: ws).isEmpty) = true := rfl
    rw [List.filter_cons, if_pos longer, List.filter_cons, if_pos some, List.filter_nil,
      List.cons.injEq, List.append_right_eq_self, none]

theorem silent_iff {n : Nat} {line : Text} (one : '\n' ∉ line) :
    Silent n line ↔ said ((fgets (line ++ ['\n'])).take n) =
      said ((fgets (uncommented line ++ ['\n'])).take n) := by
  obtain ⟨same, clean⟩ | ⟨chunks, kept, sign, rest, later, isSign, clean, long, short⟩ :=
    cut_or_clean one
  · rw [same]
    refine iff_of_true ?_ rfl
    -- A line without a sign is its own uncommented line.
    have plain : ∀ text ∈ (fgets (line ++ ['\n'])).take n, ∀ c ∈ text, isComment c = false := by
      intro text here c inside
      obtain ⟨chunks, among, reads⟩ := fgetsFrom_before one []
      have read : fgets (line ++ ['\n']) = chunks ++ [buffered [] line ++ ['\n']] := reads _
      have member := List.mem_of_mem_take here
      rw [read, List.mem_append, List.mem_singleton] at member
      obtain old | rfl := member
      · exact clean c ((among text old c inside).resolve_left List.not_mem_nil)
      · rw [List.mem_append, List.mem_singleton] at inside
        obtain old | rfl := inside
        · exact clean c ((mem_buffered old).resolve_left List.not_mem_nil)
        · rfl
    unfold Silent
    rw [signless plain]
    exact True.intro
  obtain ⟨cleanKept, cleanChunks⟩ := List.forall_mem_cons.mp clean
  unfold Silent
  rw [long, short]
  by_cases early : n ≤ chunks.length
  · -- The sign is not read.
    rw [List.take_append_of_le_length early, List.take_append_of_le_length early,
      signless fun text here => cleanChunks text (List.mem_of_mem_take here)]
    exact iff_of_true True.intro rfl
  -- The sign is read, so the buffer that holds it is the first that differs.
  · obtain ⟨k, rfl⟩ := Nat.exists_eq_add_of_lt (Nat.not_le.mp early)
    have through (x : Text) (xs : List Text) :
        (chunks ++ x :: xs).take (chunks.length + k + 1) = chunks ++ x :: xs.take k := by
      rw [Nat.add_assoc, List.take_length_add_append, List.take_succ_cons]
    have found : (!(kept ++ sign :: rest).any isComment) = false := by
      rw [List.any_append, List.any_cons, isSign, Bool.true_or, Bool.or_true]
      rfl
    obtain ⟨front, back⟩ := @uncommented_sign kept rest sign cleanKept isSign
    rw [through, through, List.dropWhile_append, signless cleanChunks, List.isEmpty_nil, if_pos rfl,
      List.dropWhile_cons_of_neg (by rw [found]; exact Bool.false_ne_true), SaysNothing]
    rw [front, back, List.tail_cons, List.take_nil, said_append, said_append,
      List.append_cancel_left_eq]
    unfold said
    rw [List.map_cons, List.map_singleton, words_cString_newline, words_cString_sign cleanKept isSign]
    -- Behind a word the sign starts new words; behind a blank it ends the statement.
    have begun : (if '\x00' ∈ kept ∨ unfinished [] kept = false then []
        else words [] (cString rest)) ≠ [] → words [] (cString kept) ≠ [] := by
      intro some
      split at some
      · exact absurd rfl some
      · rename_i going
        rw [not_or, Bool.not_eq_false] at going
        rw [cString_clean going.1]
        exact words_unfinished cleanKept going.2
    rw [said_more begun, List.forall_mem_map]
    refine and_congr ?_ (forall₂_congr fun text _ => wordless_iff text)
    rw [wordless_iff, ← unfinished_iff]
    by_cases nul : '\x00' ∈ kept
    · exact iff_of_true (.inl nul) (if_pos (.inl nul))
    by_cases ends : unfinished [] kept = false
    · exact iff_of_true (.inr (.inl ends)) (if_pos (.inr ends))
    · rw [if_neg fun cut => cut.elim nul ends]
      exact ⟨fun here => (here.resolve_left nul).resolve_left ends, fun none => .inr (.inr none)⟩

/-! ## Files -/

theorem fgets_uncommented_le {line : Text} (one : '\n' ∉ line) :
    (fgets (uncommented line ++ ['\n'])).length ≤ (fgets (line ++ ['\n'])).length := by
  obtain ⟨same, -⟩ | ⟨chunks, kept, sign, rest, later, -, -, long, short⟩ := cut_or_clean one
  · rw [same]
  · rw [long, short, List.length_append, List.length_append, List.length_cons, List.length_cons,
      List.length_nil]
    omega

/-- What is read of silent lines is said without the comments too, and nothing else where all of
it is read. -/
theorem said_uncommented {n : Nat} {lines : List Text} (rest : List Text)
    (one : ∀ line ∈ lines, '\n' ∉ line) (silent : AllSilent n lines) :
    let long := (lines.flatMap fun line => fgets (line ++ ['\n'])) ++ rest
    let short := (lines.flatMap fun line => fgets (uncommented line ++ ['\n'])) ++ rest
    said (long.take n) <+: said short ∧ (long.length ≤ n → said long = said short) := by
  dsimp only
  induction lines generalizing n with
  | nil =>
    refine ⟨?_, fun _ => rfl⟩
    obtain ⟨more, whole⟩ := List.take_prefix n rest
    refine ⟨said more, ?_⟩
    rw [List.flatMap_nil, List.flatMap_nil, List.nil_append, ← said_append, whole]
  | cons line lines ih =>
    obtain ⟨oneHere, oneLater⟩ := List.forall_mem_cons.mp one
    obtain ⟨here, later⟩ := silent
    have same := (silent_iff oneHere).mp here
    obtain ⟨front, whole⟩ := ih oneLater later
    rw [List.flatMap_cons, List.flatMap_cons, List.append_assoc, List.append_assoc,
      said_append (fgets (uncommented line ++ ['\n']))]
    -- Reading stops in this line, or goes on with the next.
    by_cases stops : n < (fgets (line ++ ['\n'])).length
    · constructor
      · rw [List.take_append_of_le_length (Nat.le_of_lt stops), same]
        obtain ⟨more, split⟩ := List.take_prefix n (fgets (uncommented line ++ ['\n']))
        conv => rhs; rw [← split, said_append, List.append_assoc]
        exact List.prefix_append _ _
      · intro all
        rw [List.length_append] at all
        omega
    · have through : (fgets (line ++ ['\n'])).length ≤ n := Nat.not_lt.mp stops
      rw [List.take_of_length_le through,
        List.take_of_length_le ((fgets_uncommented_le oneHere).trans through)] at same
      constructor
      · rw [List.take_append, List.take_of_length_le through, said_append, same]
        exact (List.prefix_append_right_inj _).mpr front
      · intro all
        rw [List.length_append] at all
        rw [said_append, same, whole (by omega)]

/-- Where the comments are silent in all that the first pass reads, the file assembles as it does
without them. -/
theorem comments_silent (file : Text) (silent : AllSilent (buffersRead file) (broken file).1) :
    (assemble (withoutComments file)).toOption = (assemble file).toOption := by
  have whole : ((broken file).1.map fun line => line ++ ['\n']).flatten ++ (broken file).2 = file :=
    brokenFrom_whole [] file
  have one : ∀ line ∈ (broken file).1, '\n' ∉ line := brokenFrom_one List.not_mem_nil
  obtain ⟨front, all⟩ := said_uncommented (fgets (broken file).2) one silent
  have lines := fgets_lines ((broken file).1.map uncommented) (broken file).2
  rw [List.map_map, List.flatMap_map] at lines
  have without : fgets (withoutComments file) = _ := lines
  rw [← fgets_lines, whole, ← without] at front all
  cases first : firstPass file with
  | ok layout =>
    have read : buffersRead file = (fgets file).length := by
      unfold buffersRead
      rw [first]
    exact assemble_said (all (Nat.le_of_eq read.symm)).symm
  | error e =>
    have read : buffersRead file = e.lineNumber := by
      unfold buffersRead
      rw [first]
    obtain ⟨-, fails⟩ := eachLine_error first
    rw [Nat.add_sub_cancel, ← read] at fails
    rw [@assemble_rejects file fun layout => by rw [first]; exact nofun]
    refine assemble_rejects fun layout passed => ?_
    -- What is read fails already, and it is in front of what is read without the comments.
    obtain ⟨more, split⟩ := front
    have lays := firstPass_said.mp passed
    rw [← split] at lays
    obtain ⟨early, lays⟩ := lays.front
    exact fails early (firstPass_said.mpr lays)

/-- A program with comments where comments may stand, until the line that is rejected. -/
def commented : Text := "CLS ; x\n# y\nFOO ;\n.BYTE 1;2\n".toList

theorem comments_silent_commented :
    AllSilent (buffersRead commented) (broken commented).1 ∧
      (assemble (withoutComments commented)).toOption = (assemble commented).toOption := by
  have read : buffersRead commented = 3 := by decide +kernel
  have lines : (broken commented).1 =
      ["CLS ; x".toList, "# y".toList, "FOO ;".toList, ".BYTE 1;2".toList] := by decide +kernel
  have silent : AllSilent (buffersRead commented) (broken commented).1 := by
    rw [read, lines]
    exact ⟨by decide +kernel, by decide +kernel, by decide +kernel, by decide +kernel, trivial⟩
  exact ⟨silent, comments_silent commented silent⟩

/-- A sign that ends a word does not begin a comment, and a comment that does not fit into the
buffer goes on as a line of its own. -/
theorem comments_speak :
    (assemble (withoutComments ".BYTE 1;2\n".toList)).toOption = some [1] ∧
      (assemble ".BYTE 1;2\n".toList).toOption = some [1, 2] ∧
      (assemble (withoutComments (';' :: List.replicate 1030 'x' ++ ['\n']))).toOption = some [] ∧
      (assemble (';' :: List.replicate 1030 'x' ++ ['\n'])).toOption = none := by
  decide +kernel

end ChipEight.Asm
