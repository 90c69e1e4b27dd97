import ChipEight.Disas.RoundTrip
import ChipEight.Opt.Acceptance
import ChipEight.Opt.Numbers

/-! A ROM, disassembled, optimized and assembled again.

The optimizer reads the listing as it was printed. The labels it makes are new, it has room for
them, and the numbers in the listing are the same to it as to the assembler.
-/

set_option autoImplicit false

namespace ChipEight.Disas

open Asm (Text Token Mnemonic Piece Symbol normalize wordI wordDT wordST wordF wordB wordK
  wordMemory wordV0)
open Opt (Statement Labels Unicode Symbolizable SameNumbers encode parseNumber entry)

/-! ## Operands -/

/-- What both front ends make of a word that may be a number. -/
inductive Alike (U : Unicode) (t : Token) : Prop where
  | number {n : Nat} (read : Asm.strtoul t = some n) (parsed : parseNumber U t = some (n : Int))
  | word (read : Asm.strtoul t = none) (parsed : parseNumber U t = none)

theorem number_same (U : Unicode) {w n : Nat} (positive : 0 < w) (short : w ≤ 4)
    (small : n < 16 ^ w) : Alike U (normalize (number w n)) := by
  have read := strtoul_number positive short small
  have shape : normalize (number w n) = '0' :: 'X' :: hex w n := by
    show '0' :: 'X' :: normalize (hex w n) = _
    rw [normalize_hex]
  have bound : 16 ^ w ≤ 16 ^ 4 := Nat.pow_le_pow_right (by decide) short
  refine .number read ((Opt.alike_reads U ?_ (by omega)).mp read)
  rw [shape]
  show (!(hex w n).isEmpty && (hex w n).all Asm.isxdigit) = true
  have digits : ∀ d < 16, Asm.isxdigit (hexDigit d) = true := by decide
  rw [Bool.and_eq_true, Bool.not_eq_true', List.isEmpty_eq_false_iff, List.all_eq_true]
  constructor
  · intro empty
    have length := hex_length w n
    rw [empty] at length
    exact absurd length positive.ne
  · intro c here
    obtain ⟨d, small, rfl⟩ := hex_digits here
    exact digits d small

theorem name_same (U : Unicode) {t : Token} (valid : Asm.isName t = true) : Alike U t :=
  .word (Asm.strtoul_name valid)
    (Opt.parseNumber_name ((Opt.encode_ascii (Asm.name_ascii valid)).symm ▸ valid))

theorem operand_same (U : Unicode) {o : Operand} (known : o.Known) : Alike U o.token := by
  cases o with
  | reg x =>
    have shape : (Operand.reg x).token = 'V' :: hex 1 x.toNat := by
      show 'V' :: normalize (hex 1 x.toNat) = _
      rw [normalize_hex]
    rw [shape]
    exact name_same U (hex_name 1 x.toNat)
  | byte kk => exact number_same U (by decide) (by decide) kk.isLt
  | nibble n => exact number_same U (by decide) (by decide) n.isLt
  | address nnn => exact number_same U (by decide) (by decide) nnn.isLt
  | word op => exact number_same U (by decide) (by decide) op.isLt
  | block nnn => exact name_same U (labelName_valid nnn.toNat)
  | plain t =>
    have names : ∀ t ∈ plainWords, Asm.isName (normalize t) = true ∨ normalize t = wordMemory := by
      decide
    obtain valid | memory := names t known
    · exact name_same U valid
    · show Alike U (normalize t)
      rw [memory]
      exact .word (by decide) (Opt.parseNumber_letter U _ (by decide))

/-! ## Statements -/

theorem upper_graph : ∀ n < 128, Opt.isGraph (Char.ofNat n) = true →
    (Asm.toupper (Char.ofNat n)).toNat < 128 := by
  decide +kernel

theorem Made.ascii {l : Line} (made : Made allComments l) :
    ∀ w ∈ l.tokens, (∀ c ∈ w, c.toNat < 128) ∧ w.length ≤ 8 := by
  have each {w : Token} (here : w ∈ l.op :: l.operands.map Operand.text) :
      (∀ c ∈ normalize w, c.toNat < 128) ∧ (normalize w).length ≤ 8 := by
    obtain ⟨graphic, short⟩ := made.graphic w here
    refine ⟨fun c inside => ?_, (List.length_map _).trans_le short⟩
    obtain ⟨d, there, rfl⟩ := List.mem_map.mp inside
    have graph := graphic.graph d there
    have small : d.toNat < 128 := Nat.lt_succ_of_lt (Opt.graph_printable graph).2
    have upper := upper_graph d.toNat small
    rw [Char.ofNat_toNat] at upper
    exact upper graph
  intro w here
  obtain rfl | inside := List.mem_cons.mp here
  · exact each List.mem_cons_self
  · obtain ⟨o, there, rfl⟩ := List.mem_map.mp inside
    exact each (List.mem_cons_of_mem _ (List.mem_map_of_mem there))

/-- What a statement of the listing is. -/
structure Origin (s : Statement) : Prop where
  label : ∀ name, s.label = some name → ∃ pc, name = labelName pc
  line : ∀ op, s.op = some op → ∃ l, Made allComments l ∧ op :: s.args = l.tokens

section
variable {U : Unicode} {decodeUnreachable : Bool} {rom : List Byte} {statements : List Statement}
  {labels : Labels}

theorem sourceItems_listing (U : Unicode) (decodeUnreachable : Bool) (rom : List Byte) :
    (Opt.sourceItems U (asmOutput decodeUnreachable rom)).map Opt.encodeLine =
      Asm.items ((pieces decodeUnreachable rom).map Piece.line) := by
  have neat := listing_neat decodeUnreachable rom
  have ascii : encode (asmOutput decodeUnreachable rom) = asmOutput decodeUnreachable rom :=
    Opt.encode_printed fun t here => (neat t here).1
  obtain ⟨lines, reads, words⟩ := (listing_same U decodeUnreachable rom).words
  obtain ⟨lines', reads', items⟩ := Asm.reads_printed
    (fun t here => ⟨(neat t here).1.one, (neat t here).2⟩) (reads_listing decodeUnreachable rom)
  rw [items_items] at items
  rw [ascii] at reads
  obtain rfl := Asm.reads_unique reads reads'
  exact words.symm.trans items

theorem origin
    (parses : Opt.Parses statements (Opt.sourceItems U (asmOutput decodeUnreachable rom)))
    {s : Statement} (here : s ∈ statements) : Origin s := by
  have cases' {item : Asm.Line} (inside : item ∈ s.items) :
      (∃ pc, Opt.encodeLine item = ⟨some (labelName pc), []⟩) ∨
        ∃ l, Made allComments l ∧ Opt.encodeLine item = ⟨none, l.tokens⟩ := by
    refine @item_cases decodeUnreachable rom _ ?_
    rw [← sourceItems_listing U, ← parses.items]
    exact List.mem_map_of_mem (List.mem_flatMap.mpr ⟨s, here, inside⟩)
  have shape : s.items = (s.label.map fun name => (⟨some name, []⟩ : Asm.Line)).toList ++
      if (s.op.toList ++ s.args).isEmpty then [] else [⟨none, s.op.toList ++ s.args⟩] := by
    unfold Statement.items Asm.Line.items
    cases s.label <;> rfl
  constructor
  · intro name label
    have inside : (⟨some name, []⟩ : Asm.Line) ∈ s.items := by
      rw [shape, label]
      exact List.mem_append_left _ List.mem_cons_self
    obtain ⟨pc, same⟩ | ⟨l, -, same⟩ := cases' inside
    · have named : encode name = labelName pc := by
        have labels := congrArg Asm.Line.label same
        exact Option.some.inj labels
      exact ⟨pc, (Opt.encode_eq_ascii (Asm.name_ascii (labelName_valid pc))).mp named⟩
    · have labels := congrArg Asm.Line.label same
      cases labels
  · intro op isOp
    have inside : (⟨none, op :: s.args⟩ : Asm.Line) ∈ s.items := by
      rw [shape, isOp]
      exact List.mem_append_right _ List.mem_cons_self
    obtain ⟨pc, same⟩ | ⟨l, made, same⟩ := cases' inside
    · have labels := congrArg Asm.Line.label same
      cases labels
    · refine ⟨l, made, ?_⟩
      have words : (op :: s.args).map encode = l.tokens := congrArg Asm.Line.statement same
      have ascii : ∀ w ∈ op :: s.args, encode w = w := by
        intro w operand
        exact Opt.encode_ascii (Opt.ascii_of_encode
          (made.ascii _ (words ▸ List.mem_map_of_mem operand)).1)
      rw [← words, (List.map_congr_left ascii).trans (List.map_id _)]

theorem Origin.args {s : Statement} (origin : Origin s) (bare : s.op = none → s.args = []) :
    s.args.length ≤ 3 ∧ ∀ a ∈ s.args, (∀ c ∈ a, c.toNat < 128) ∧ normalize a = a ∧ a.length ≤ 8 ∧
      Alike U a := by
  cases isOp : s.op with
  | none =>
    rw [bare isOp]
    exact ⟨Nat.zero_le _, fun _ here => absurd here List.not_mem_nil⟩
  | some op =>
    obtain ⟨l, made, words⟩ := origin.line op isOp
    have args : s.args = l.operands.map Operand.token := (List.cons.inj words).2
    have facts := made.ascii
    rw [← words] at facts
    refine ⟨by rw [args, List.length_map]; exact made.few, fun a here => ?_⟩
    obtain ⟨ascii, short⟩ := facts a (List.mem_cons_of_mem _ here)
    rw [args] at here
    obtain ⟨o, there, rfl⟩ := List.mem_map.mp here
    exact ⟨ascii, Asm.normalize_idem _, short, operand_same U (made.known o there)⟩

variable (origins : ∀ s ∈ statements, Origin s) (labelled : Opt.Labelled statements labels)
include origins labelled

theorem listing_numbers : SameNumbers U statements := by
  intro s here _ a operand n number
  obtain ⟨ascii, -, -, alike⟩ :=
    (@Origin.args U s (origins s here) (labelled.bare s here)).2 a operand
  rw [Opt.encode_ascii ascii] at number
  cases alike with
  | number read parsed =>
    cases number.symm.trans read
    exact parsed
  | word read _ =>
    cases number.symm.trans read

theorem listing_target {s : Statement} (here : s ∈ statements)
    (numeric : Opt.numericLast U s = true) {v : Nat}
    (isTarget : Opt.target U labels s = some (v : Int)) :
    ∀ last, s.args.getLast? = some last → Asm.strtoul (encode last) = some v := by
  intro last isLast
  have operand : last ∈ s.args := List.mem_of_getLast? isLast
  obtain ⟨ascii, upper, -, alike⟩ :=
    (@Origin.args U s (origins s here) (labelled.bare s here)).2 last operand
  unfold Opt.numericLast at numeric
  rw [isLast, Option.bind_some] at numeric
  rw [Opt.encode_ascii ascii]
  cases alike with
  | word _ parsed =>
    rw [parsed] at numeric
    cases numeric
  | @number n read parsed =>
    unfold Opt.target at isTarget
    rw [isLast, Option.bind_some] at isTarget
    unfold Opt.resolve at isTarget
    -- no label is spelled like a number
    have noLabel : labels.lookup (Opt.upper U last) = none := by
      rw [Opt.upper_ascii U ascii, upper, Option.eq_none_iff_forall_ne_some]
      intro value found
      obtain ⟨symbol, inside, name⟩ := Opt.labels_lookup found
      obtain ⟨r, there, rfl⟩ := List.mem_map.mp inside
      obtain ⟨-, q, within, label, -⟩ := labelled.labels r there
      obtain ⟨pc, isName⟩ := (origins q within).label r.1 label
      have valid := labelName_valid pc
      have spelled : encode r.1 = last := name.trans (Opt.encode_ascii ascii)
      rw [isName, Opt.encode_ascii (Asm.name_ascii valid)] at spelled
      rw [spelled] at valid
      cases (Asm.strtoul_name valid).symm.trans read
    rw [noLabel] at isTarget
    dsimp only at isTarget
    rw [read]
    exact congrArg some (Int.ofNat.inj (Option.some.inj (parsed.symm.trans isTarget)))

end

/-! ## Addresses -/

section
variable {U : Unicode} {statements : List Statement} {start stop : Nat}

theorem follows_starts (follows : Opt.Follows U start statements stop) (more : start < stop) :
    ∃ t ∈ statements, t.pc = start ∧ 0 < t.size := by
  induction follows with
  | nil => exact absurd more (Nat.lt_irrefl _)
  | @cons s rest stop _ _ ih =>
    by_cases empty : s.size = 0
    · rw [empty] at ih
      obtain ⟨t, here, same, some⟩ := ih more
      exact ⟨t, List.mem_cons_of_mem _ here, same, some⟩
    · exact ⟨s, List.mem_cons_self, rfl, Nat.pos_of_ne_zero empty⟩

theorem follows_stands (follows : Opt.Follows U start statements stop) {s : Statement}
    (here : s ∈ statements) (before : s.pc < stop) :
    ∃ t ∈ statements, t.pc = s.pc ∧ 0 < t.size := by
  induction follows with
  | nil => cases here
  | cons sized follows ih =>
    obtain rfl | later := List.mem_cons.mp here
    · exact follows_starts (.cons sized follows) before
    · obtain ⟨t, inside, same, some⟩ := ih later before
      exact ⟨t, List.mem_cons_of_mem _ inside, same, some⟩

theorem follows_positive (follows : Opt.Follows U start statements stop)
    (bare : ∀ s ∈ statements, s.op = none → s.args = []) {s : Statement} (here : s ∈ statements)
    (some : 0 < s.size) : s.op.isSome = true := by
  cases isOp : s.op with
  | some op => rfl
  | none =>
    have sized := follows.sized here
    rw [isOp, bare s here isOp] at sized
    have nothing : 0 = s.size := Except.ok.inj sized
    omega

end

/-! ## Counting lines -/

/-- An item that is a statement. -/
def isStatement (l : Asm.Line) : Bool := l.label.isNone

theorem count_statements {statements : List Statement}
    (bare : ∀ s ∈ statements, s.op = none → s.args = []) :
    (statements.filter fun s => s.op.isSome).length =
      (((statements.flatMap Statement.items).map Opt.encodeLine).filter isStatement).length := by
  induction statements with
  | nil => rfl
  | cons s rest ih =>
    have later := ih fun r inside => bare r (List.mem_cons_of_mem _ inside)
    have here := bare s List.mem_cons_self
    obtain ⟨line, label, op, args, pc, size⟩ := s
    rw [List.flatMap_cons, List.map_append, List.filter_append, List.length_append, ← later]
    cases op with
    | none =>
      cases here rfl
      cases label <;> simp [Statement.items, Asm.Line.items, Opt.encodeLine, isStatement]
    | some op =>
      cases label <;>
        simp [Statement.items, Asm.Line.items, Opt.encodeLine, List.filter_cons, isStatement,
          Nat.add_comm]

theorem count_pieces {ps : List Piece} (some : ∀ p ∈ ps, p.line.statement ≠ []) :
    ((Asm.items (ps.map Piece.line)).filter isStatement).length = ps.length := by
  induction ps with
  | nil => rfl
  | cons p rest ih =>
    have later := ih fun r inside => some r (List.mem_cons_of_mem _ inside)
    have here : p.line.statement.isEmpty = false :=
      List.isEmpty_eq_false_iff.mpr (some p List.mem_cons_self)
    rw [List.map_cons, Asm.items_cons, List.filter_append, List.length_append, later]
    cases label : p.line.label <;>
      simp [Asm.Line.items, label, here, List.filter_cons, isStatement, Nat.add_comm]

/-! ## The program -/

/-- What the optimizer reads from the listing of a ROM. -/
structure Front (U : Unicode) (decodeUnreachable : Bool) (rom : List Byte)
    (statements : List Statement) (labels : Labels) (layout : Asm.Layout) : Prop where
  parsed : Opt.parseSource U (asmOutput decodeUnreachable rom) = .ok (statements, labels)
  parses : Opt.Parses statements (Opt.sourceItems U (asmOutput decodeUnreachable rom))
  clean : Opt.Clean statements
  assembled : Opt.Assembled statements layout rom
  symbols : layout.symbols = Asm.symbolsFrom entrypoint.toNat (pieces decodeUnreachable rom)

theorem listing_assembles (decodeUnreachable : Bool) {rom : List Byte} (fits : rom.length ≤ 3584) :
    Asm.assemble (encode (asmOutput decodeUnreachable rom)) = .ok rom := by
  have neat := listing_neat decodeUnreachable rom
  have ascii : encode (asmOutput decodeUnreachable rom) = asmOutput decodeUnreachable rom :=
    Opt.encode_printed fun t here => (neat t here).1
  obtain ⟨layout, assembles⟩ := pieces_assemble decodeUnreachable fits
  obtain ⟨lines, reads, items⟩ := Asm.reads_printed
    (fun t here => ⟨(neat t here).1.one, (neat t here).2⟩) (reads_listing decodeUnreachable rom)
  rw [items_items] at items
  rw [ascii]
  exact Asm.assemble_ok.mpr ⟨lines, layout, reads, items ▸ assembles⟩

theorem listing_front (U : Unicode) (decodeUnreachable : Bool) {rom : List Byte}
    (fits : rom.length ≤ 3584) :
    ∃ statements labels layout, Front U decodeUnreachable rom statements labels layout := by
  obtain ⟨statements, labels, layout, parsed, -, -, parses, clean, assembles⟩ :=
    Opt.parseSource_same U (listing_assembles decodeUnreachable fits)
      (listing_same U decodeUnreachable rom)
  have pieces := Asm.assembles_pieces (pieces_fit decodeUnreachable fits)
    (pieces_written decodeUnreachable fits)
  refine ⟨statements, labels, layout, parsed, parses, ?_, ?_, ?_⟩
  · unfold Opt.Clean
    rw [parses.items]
    exact clean
  · unfold Opt.Assembled
    rw [parses.items]
    exact assembles
  · have first := assembles.first
    rw [sourceItems_listing, pieces.first] at first
    rw [← Except.ok.inj first]

namespace Front

variable {U : Unicode} {decodeUnreachable : Bool} {rom : List Byte} {statements : List Statement}
  {labels : Labels} {layout : Asm.Layout}

theorem origin (front : Front U decodeUnreachable rom statements labels layout) :
    ∀ s ∈ statements, Origin s := fun _ here => Disas.origin front.parses here

theorem printed (front : Front U decodeUnreachable rom statements labels layout) :
    ∀ s ∈ statements, Opt.Printed s := by
  intro s here
  refine ⟨front.parses.bare s here, fun isOrg => ?_⟩
  obtain ⟨l, made, words⟩ := (front.origin s here).line _ isOrg
  have noOrg := made.noOrg
  rw [← words] at noOrg
  exact noOrg rfl

theorem label_at (front : Front U decodeUnreachable rom statements labels layout)
    (fits : rom.length ≤ 3584) {stop : Nat} (follows : Opt.Follows U entry statements stop)
    {s : Statement} (here : s ∈ statements) {name : Token} (label : s.label = some name) :
    name = labelName s.pc ∧ s.pc ∈ addresses rom := by
  have printed := front.printed
  have found := (Opt.assembled_at front.assembled follows (fun s here => (printed s here).bare)
    (fun s here => (printed s here).other) here).2 name label
  rw [front.symbols] at found
  have distinct : ((Asm.symbolsFrom entrypoint.toNat (pieces decodeUnreachable rom)).map
      Symbol.name).Nodup := by
    rw [Asm.symbolsFrom_names, pieces_labels]
    exact labels_nodup fits
  have among : encode name ∈ ((addresses rom).filter (finalMap rom).leader).map labelName := by
    rw [← pieces_labels decodeUnreachable, ← Asm.symbolsFrom_names entrypoint.toNat]
    exact List.mem_map_of_mem (List.mem_of_find?_eq_some found)
  -- the symbol of that name has the address the name was made of
  obtain ⟨a, inside, same⟩ := List.mem_map.mp among
  obtain ⟨within, leads⟩ := List.mem_filter.mp inside
  have known := Asm.lookup_mem distinct (symbol_mem decodeUnreachable within leads)
  dsimp only at known
  rw [same, found] at known
  have address : s.pc = a := congrArg Symbol.value (Option.some.inj known)
  obtain ⟨pc, isName⟩ := (front.origin s here).label name label
  rw [isName, Opt.encode_ascii (Asm.name_ascii (labelName_valid pc))] at same
  rw [address, isName]
  exact ⟨same.symm, within⟩

theorem statements_length (front : Front U decodeUnreachable rom statements labels layout) :
    (statements.filter fun s => s.op.isSome).length = (addresses rom).length := by
  rw [count_statements front.parses.bare, front.parses.items, sourceItems_listing, count_pieces]
  · unfold pieces addresses
    simp only [List.length_append, List.length_map]
  · intro p here
    obtain ⟨pc, rfl⟩ | ⟨pc, rfl⟩ := mem_pieces here
    · exact List.cons_ne_nil _ _
    · exact List.cons_ne_nil _ _

theorem labels_spelled
    (each : ∀ s ∈ statements, ∀ name, s.label = some name → name = labelName s.pc) :
    ((statements.filter fun s => s.label.isSome).map Statement.pc).map labelName =
      statements.filterMap Statement.label := by
  induction statements with
  | nil => rfl
  | cons s rest ih =>
    have later := ih fun r inside => each r (List.mem_cons_of_mem _ inside)
    cases label : s.label with
    | none =>
      rw [List.filterMap_cons_none label, List.filter_cons_of_neg (by rw [label]; decide), later]
    | some name =>
      rw [List.filterMap_cons_some label, List.filter_cons_of_pos (by rw [label]; rfl),
        List.map_cons, List.map_cons, later, each s List.mem_cons_self name label]

theorem room (front : Front U decodeUnreachable rom statements labels layout)
    (fits : rom.length ≤ 3584) {stop : Nat} (follows : Opt.Follows U entry statements stop)
    (listed : Opt.Listed statements labels)
    (placed : Opt.WellPlaced statements stop rom) :
    (statements.filter (Opt.needsLabel U statements labels)).length +
      (statements.filterMap Statement.label).length ≤ Asm.maxSymbols := by
  have bare := front.parses.bare
  -- made and old labels stand at different addresses, each of them that of a line
  let made := (statements.filter (Opt.needsLabel U statements labels)).map Statement.pc
  let named := (statements.filter fun s => s.label.isSome).map Statement.pc
  let lines := (statements.filter fun s => s.op.isSome).map Statement.pc
  have fresh : made.Nodup := by
    have distinct := Opt.needsLabel_distinct listed front.printed follows placed
    rw [← Function.comp_def Opt.addressName Statement.pc, ← List.map_map] at distinct
    exact distinct.of_map
  have spelled := labels_spelled fun s here name label =>
    (front.label_at fits follows here label).1
  have apart : named.Nodup := by
    have distinct := placed.distinct
    rw [← spelled] at distinct
    exact distinct.of_map
  have other : List.Disjoint made named := by
    intro a needs there
    obtain ⟨s, here, rfl⟩ := List.mem_map.mp needs
    obtain ⟨r, inside, same⟩ := List.mem_map.mp there
    obtain ⟨within, isLabel⟩ := List.mem_filter.mp inside
    have none := (Bool.and_eq_true_iff.mp (List.mem_filter.mp here).2).2
    have noLabel := List.any_eq_false.mp ((Bool.not_eq_true' _).mp none) r within
    exact noLabel (by rw [isLabel, same, beq_self_eq_true]; rfl)
  have all : made ++ named ⊆ lines := by
    intro a here
    obtain needs | there := List.mem_append.mp here
    · obtain ⟨s, inside, rfl⟩ := List.mem_map.mp needs
      obtain ⟨within, needs⟩ := List.mem_filter.mp inside
      have some := Opt.needsLabel_positive listed front.printed placed within needs
      exact List.mem_map_of_mem (List.mem_filter.mpr
        ⟨within, follows_positive follows bare within some⟩)
    · obtain ⟨r, inside, rfl⟩ := List.mem_map.mp there
      obtain ⟨within, isLabel⟩ := List.mem_filter.mp inside
      obtain ⟨name, label⟩ := Option.isSome_iff_exists.mp isLabel
      have below := (mem_addresses.mp (front.label_at fits follows within label).2).2.2
      have ends := placed.length
      have start : entry = entrypoint.toNat := rfl
      unfold endOf at below
      obtain ⟨t, found, same, some⟩ := follows_stands follows within (by omega)
      rw [← same]
      exact List.mem_map_of_mem (List.mem_filter.mpr
        ⟨found, follows_positive follows bare found some⟩)
  -- a ROM has a line for every two bytes, and one more for an odd byte
  have count := ((List.nodup_append'.mpr ⟨fresh, apart, other⟩).subperm all).length_le
  have labelled := congrArg List.length spelled
  rw [List.length_map, List.length_map] at labelled
  have most : (addresses rom).length ≤ rom.length / 2 + 1 := by
    unfold addresses wordAddresses trailing
    rw [List.length_append, List.length_map, List.length_range]
    split
    · exact Nat.le_refl _
    · exact Nat.le_succ _
  have whole := front.statements_length
  have limit : Asm.maxSymbols = 2048 := rfl
  simp only [made, named, lines, List.length_append, List.length_map] at count
  omega

theorem symbolizable (front : Front U decodeUnreachable rom statements labels layout)
    (fits : rom.length ≤ 3584) : Symbolizable U statements labels := by
  have labelled := Opt.parseSource_labelled front.parsed
  have listed := Opt.parseSource_listed front.parsed
  obtain ⟨stop, follows⟩ := Opt.parseSource_follows front.parsed
  obtain ⟨-, placed⟩ := Opt.WellPlaced.of_assembled front.assembled follows labelled.bare
    fun s here => (front.printed s here).other
  refine ⟨⟨layout, rom, front.assembled⟩, ?_, front.room fits follows listed placed, ?_⟩
  · -- a label of the listing is no name the optimizer makes
    intro s _ _ r inside label
    have spelled := (front.label_at fits follows inside label).1
    rw [labelName_eq] at spelled
    cases spelled
  · intro s here r _ _ numeric isTarget
    exact listing_target front.origin labelled here numeric isTarget

end Front

/-! ## The symbolized listing -/

/-- A statement of few short words. -/
structure Brief (s : Statement) : Prop where
  label : ∀ name, s.label = some name → (encode name).length ≤ 8
  few : s.args.length ≤ 3
  words : ∀ w ∈ s.op.toList ++ s.args, (encode w).length ≤ 8

theorem printStatement_short {ws : List Token} (few : ws.length ≤ 4)
    (short : ∀ w ∈ ws, w.length ≤ 8) : (Asm.printStatement ws).length ≤ 46 := by
  cases ws with
  | nil => exact Nat.zero_le _
  | cons op args =>
    have spaced := spaced_length fun w here => short w (List.mem_cons_of_mem op here)
    have first := short op List.mem_cons_self
    have blanks : Asm.indentation.length = 8 := rfl
    rw [List.length_cons] at few
    rw [Asm.printStatement, List.length_append, List.length_append]
    omega

theorem Brief.short {s : Statement} (brief : Brief s) :
    ∀ item ∈ s.items, (Asm.printItem (Opt.encodeLine item)).length ≤ 1023 := by
  intro item here
  unfold Statement.items Asm.Line.items at here
  obtain label | statement := List.mem_append.mp here
  · cases isLabel : s.label with
    | none =>
      rw [isLabel] at label
      cases label
    | some name =>
      rw [isLabel] at label
      rw [List.mem_singleton.mp label]
      have small := brief.label name isLabel
      show (encode name ++ [':']).length ≤ 1023
      rw [List.length_append, List.length_singleton]
      omega
  · split at statement
    · cases statement
    · rw [List.mem_singleton.mp statement]
      have small : (Asm.printStatement ((s.op.toList ++ s.args).map encode)).length ≤ 46 := by
        apply printStatement_short
        · have few := brief.few
          rw [List.length_map, List.length_append]
          cases s.op <;> simp only [Option.toList_none, Option.toList_some, List.length_nil,
            List.length_singleton] <;> omega
        · intro w inside
          obtain ⟨v, there, rfl⟩ := List.mem_map.mp inside
          exact brief.words v there
      exact small.trans (by decide)

section
variable {U : Unicode} {statements : List Statement} {labels : Labels}
  (origins : ∀ s ∈ statements, Origin s) (labelled : Opt.Labelled statements labels)
include origins labelled

theorem origin_brief {s : Statement} (here : s ∈ statements) : Brief s := by
  have origin := origins s here
  obtain ⟨few, args⟩ := @Origin.args Opt.ascii s origin (labelled.bare s here)
  refine ⟨?_, few, ?_⟩
  · intro name label
    obtain ⟨pc, rfl⟩ := origin.label name label
    rw [Opt.encode_ascii (Asm.name_ascii (labelName_valid pc))]
    show ((blockName pc).map Asm.toupper).length ≤ 8
    rw [List.length_map, blockName_length]
  · intro w operand
    cases isOp : s.op with
    | none =>
      rw [isOp] at operand
      obtain ⟨ascii, -, short, -⟩ := args w operand
      rwa [Opt.encode_ascii ascii]
    | some op =>
      obtain ⟨l, made, same⟩ := origin.line op isOp
      rw [isOp] at operand
      obtain ⟨ascii, short⟩ := made.ascii w (same ▸ operand)
      rwa [Opt.encode_ascii ascii]

theorem symbolize_short : Opt.Short (Opt.symbolize U statements labels).1 := by
  intro item here
  obtain ⟨q, inside, within⟩ := List.mem_flatMap.mp here
  refine Brief.short ?_ item within
  have generated (v : Nat) : (encode (Opt.addressName v)).length ≤ 8 := by
    rw [Opt.encode_addressName, Opt.addressName, List.length_append, hex_length]
    decide
  have old : ∀ r ∈ labels, (encode r.1).length ≤ 8 := by
    intro r there
    obtain ⟨-, s, found, label, -⟩ := labelled.labels r there
    exact (origin_brief origins labelled found).label r.1 label
  -- a label that is made, a statement as it was, or one with a name for its number
  obtain ⟨s, there, rfl | rfl | ⟨name, short, rfl, numeric⟩⟩ :=
    Opt.symbolizeFrom_names (P := fun name => (encode name).length ≤ 8) generated old old q inside
  · exact ⟨fun name label => Option.some.inj label ▸ generated s.pc, Nat.zero_le _,
      fun _ operand => absurd operand List.not_mem_nil⟩
  · exact origin_brief origins labelled there
  · obtain ⟨label, few, words⟩ := origin_brief origins labelled there
    obtain ⟨front, last, args, -⟩ := Opt.numericLast_last numeric
    have args' : (Opt.withLast s name).args = front ++ [name] := by
      show s.args.dropLast ++ [name] = _
      rw [args, List.dropLast_concat]
    refine ⟨label, ?_, ?_⟩
    · rw [args']
      rw [args] at few
      simpa using few
    · intro w operand
      rw [args'] at operand
      rw [args] at words
      simp only [List.mem_append, List.mem_singleton] at operand words
      obtain op | before | rfl := operand
      · exact words w (.inl op)
      · exact words w (.inr (.inl before))
      · exact short

end

/-! ## The tools in a row -/

/-- A ROM that is disassembled, optimized and assembled again is two bytes shorter for each
deletion that is reported; in a run whose steps are fine it shows what the ROM shows, and if the
run goes on for ever it shows nothing else. -/
theorem toolchain (U : Unicode) (decodeUnreachable : Bool) {rom : List Byte}
    (fits : rom.length ≤ 3584) :
    ∃ statements labels,
      Opt.parseSource U (asmOutput decodeUnreachable rom) = .ok (statements, labels) ∧
      ∀ out changes, Opt.optimizePeepholes U statements labels = .ok (out, changes) →
        ∃ a rom', Opt.analyze U (Opt.symbolize U statements labels).2
            (Opt.symbolize U statements labels).1 = some a ∧
          Asm.assemble (encode (Opt.canonicalize out)) = .ok rom' ∧
          rom'.length + 2 * Opt.deletions changes = rom.length ∧
          ∀ tape undefinedShift, Opt.Answers (tapePlatform tape undefinedShift) →
            (∀ n s, Run.after (blockStep (tapePlatform tape undefinedShift)) n
                (interpreterStart rom) = some s →
              Opt.FineUpTo tape undefinedShift (Opt.optimizerPatch U statements labels a rom) rom n →
              ∃ m t, Run.after (blockStep (tapePlatform tape undefinedShift)) m
                  (interpreterStart rom') = some t ∧
                Opt.shown (tapePlatform tape undefinedShift) rom' m =
                  Opt.shown (tapePlatform tape undefinedShift) rom n) ∧
            ((∀ n, ∃ s, Run.after (blockStep (tapePlatform tape undefinedShift)) n
                (interpreterStart rom) = some s ∧
                Opt.FineUpTo tape undefinedShift (Opt.optimizerPatch U statements labels a rom)
                  rom n) →
              Opt.SameShown (tapePlatform tape undefinedShift) rom rom') := by
  obtain ⟨statements, labels, layout, front⟩ := listing_front U decodeUnreachable fits
  refine ⟨statements, labels, front.parsed, fun out changes returned => ?_⟩
  have labelled := Opt.parseSource_labelled front.parsed
  have listed := Opt.parseSource_listed front.parsed
  obtain ⟨layout₁, stop, symbolic, follows, printed⟩ := Opt.symbolize_assembles front.parsed
    (front.symbolizable fits) front.assembled returned
  obtain ⟨layout', rom', optimized, length, whole⟩ :=
    Opt.symbolized_assembles returned symbolic follows printed
  have accepted := listing_assembles decodeUnreachable fits
  have same := listing_same U decodeUnreachable rom
  have numbers : SameNumbers U statements := listing_numbers front.origin labelled
  obtain ⟨a, analyzed, rewritten⟩ := Opt.rewritten_of front.parsed returned optimized
  have patched := Opt.patched_of accepted same front.parsed numbers rewritten
  refine ⟨a, rom', analyzed, whole (Opt.symbolize_named labelled listed).2
    (Opt.symbolize_clean labelled front.clean) (symbolize_short front.origin labelled), length, ?_⟩
  intro tape undefinedShift answers
  exact ⟨fun n s run fine => patched.shows answers run fine,
    fun goes => (patched.sameShown answers goes).2⟩

/-- What the optimizer reads of the ROM of a no-op and a sum. -/
def sumListing : List Statement :=
  [⟨1, some (labelName 0x200), none, [], 0x200, 0⟩,
    ⟨2, none, some ['L', 'D'], [['V', '0'], normalize (number 2 1)], 0x200, 2⟩,
    ⟨3, none, some ['L', 'D'], [['V', '1'], ['V', '1']], 0x202, 2⟩,
    ⟨4, none, some ['L', 'D'], [['V', '2'], normalize (number 2 5)], 0x204, 2⟩,
    ⟨5, none, some ['A', 'D', 'D'], [['V', '2'], normalize (number 2 3)], 0x206, 2⟩,
    ⟨6, none, some ['L', 'D'], [['D', 'T'], ['V', '2']], 0x208, 2⟩,
    ⟨7, some (labelName 0x20a), none, [], 0x20a, 0⟩,
    ⟨8, none, some ['J', 'P'], [labelName 0x20a], 0x20a, 2⟩]

def sumListingLabels : Labels := [(labelName 0x200, 0x200), (labelName 0x20a, 0x20a)]

/-- The sum is folded and the no-op deleted, and the timer is set to the sum. -/
theorem toolchain_sum :
    ∃ out changes rom' m,
      Opt.parseSource Opt.ascii (asmOutput false Opt.sumRom) =
        .ok (sumListing, sumListingLabels) ∧
      Opt.optimizePeepholes Opt.ascii sumListing sumListingLabels = .ok (out, changes) ∧
      Asm.assemble (encode (Opt.canonicalize out)) = .ok rom' ∧ rom'.length = 8 ∧
      (Opt.shown (tapePlatform Opt.pressedTape fun _ => 0#32) rom' m).map Prod.fst =
        [.setDelay 8#8] := by
  have read : Opt.parseSource Opt.ascii (asmOutput false Opt.sumRom) =
      .ok (sumListing, sumListingLabels) := by
    decide +kernel
  have deleted : (Opt.optimizePeepholes Opt.ascii sumListing sumListingLabels).toOption.elim false
      (fun r => Opt.deletions r.2 == 2) = true := by
    decide +kernel
  have fates : (Opt.analyze Opt.ascii (Opt.symbolize Opt.ascii sumListing sumListingLabels).2
      (Opt.symbolize Opt.ascii sumListing sumListingLabels).1).elim false (fun a =>
        [0x200, 0x202, 0x204, 0x206, 0x208].all fun pc =>
          (Opt.optimizerPatch Opt.ascii sumListing sumListingLabels a Opt.sumRom).fate pc !=
            .overwritten) = true := by
    decide +kernel
  obtain ⟨statements, labels, parsed, tools⟩ := toolchain Opt.ascii false
    (by decide : Opt.sumRom.length ≤ 3584)
  cases read.symm.trans parsed
  cases returned : Opt.optimizePeepholes Opt.ascii sumListing sumListingLabels with
  | error _ =>
    rw [returned] at deleted
    cases deleted
  | ok r =>
    obtain ⟨out, changes⟩ := r
    rw [returned] at deleted
    have two : Opt.deletions changes = 2 := beq_iff_eq.mp deleted
    obtain ⟨a, rom', analyzed, assembled, length, runs⟩ := tools out changes returned
    rw [analyzed] at fates
    simp only [Option.elim_some, List.all_cons, List.all_nil, Bool.and_true, Bool.and_eq_true,
      bne_iff_ne] at fates
    obtain ⟨first, second, third, fourth, fifth⟩ := fates
    obtain ⟨m, t, -, shows⟩ := (runs Opt.pressedTape (fun _ => 0#32)
      Opt.pressedTape_answers).1 5 _ rfl <| Opt.fineUpTo_plain <| by
        intro k small s reached
        interval_cases k <;> cases reached
        · exact ⟨_, rfl, rfl, ⟨rfl, rfl⟩, first⟩
        · exact ⟨_, rfl, rfl, ⟨rfl, rfl⟩, second⟩
        · exact ⟨_, rfl, rfl, ⟨rfl, rfl⟩, third⟩
        · exact ⟨_, rfl, rfl, ⟨rfl, rfl⟩, fourth⟩
        · exact ⟨_, rfl, rfl, ⟨rfl, rfl⟩, fifth⟩
    refine ⟨out, changes, rom', m, read, rfl, assembled, ?_, ?_⟩
    · have whole : Opt.sumRom.length = 12 := rfl
      omega
    · rw [shows]
      rfl

end ChipEight.Disas
