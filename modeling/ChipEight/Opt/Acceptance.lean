import ChipEight.Opt.Preservation

/-! What `optimize_peepholes` returns assembles again, two bytes shorter for each deletion.

The addresses of labels only fall, and what is read under one table is read under a table
with all its labels at addresses that are no higher.
-/

set_option autoImplicit false

namespace ChipEight.Opt

open Asm (Text Token Mnemonic Layout Symbol Means wordK)
open Layout (total)

/-! ## Sizes -/

def Rule.deletes : Rule → Bool
  | .fold _ => true
  | .noop => true
  | .overwritten => true
  | _ => false

/-- The entries of `changes` that report a deleted instruction. -/
def deletions (changes : List Change) : Nat := changes.countP fun c => c.rule.deletes

section
variable {U : Unicode} {labels : Labels} {free : Nat → Bool} {statements : List Statement}

/-- The bytes of the statement behind that a fold takes in. -/
def Rule.takes : Rule → Nat
  | .fold _ => 2
  | _ => 0

theorem rule_total {s : Statement} {next : Option Statement}
    (instruction : ∀ m, isOp s m = true → s.size = 2) {rule : Rule}
    (isRule : ruleAt U labels free s next = rule) :
    total Statement.size (rule.image s) + 2 * deletions (rule.change s) = s.size + rule.takes := by
  cases rule with
  | fold n =>
    obtain ⟨t, -, found⟩ := ruleAt_fold isRule
    rw [instruction .ld (folds_some found).1]
    rfl
  | tailCall =>
    obtain ⟨t, -, tail⟩ := ruleAt_tailCall isRule
    simp only [isTailCall, Bool.and_eq_true] at tail
    rw [instruction .call tail.1.1.1]
    rfl
  | noop =>
    rw [(noop_op (ruleAt_noop isRule)).elim (instruction .ld) (instruction .add)]
    rfl
  | overwritten =>
    obtain ⟨t, -, replaced⟩ := ruleAt_overwritten isRule
    rw [instruction .ld (overwritten_op replaced)]
    rfl
  | keep => rfl

theorem deletions_append (xs ys : List Change) :
    deletions (xs ++ ys) = deletions xs + deletions ys := List.countP_append

theorem rewrite_total (instruction : ∀ s ∈ statements, ∀ m, isOp s m = true → s.size = 2) :
    total Statement.size (rewrite U labels free statements).1 +
        2 * deletions (rewrite U labels free statements).2 =
      total Statement.size statements := by
  induction statements using rewrite.induct U labels free with
  | case1 => rfl
  | case2 s =>
    have here := rule_total (instruction s List.mem_cons_self)
      (rfl : ruleAt U labels free s none = _)
    have single : (ruleAt U labels free s none).takes = 0 := by
      cases isRule : ruleAt U labels free s none with
      | fold n =>
        obtain ⟨t, none, -⟩ := ruleAt_fold isRule
        cases none
      | _ => rfl
    rw [single] at here
    rw [rewrite, Layout.total_cons, Layout.total_nil]
    exact here
  | case3 s t rest merged kept =>
    have here := rule_total (instruction s List.mem_cons_self)
      (rfl : ruleAt U labels free s (some t) = _)
    have later := kept fun r inside => instruction r (List.mem_cons_of_mem _ inside)
    rw [rewrite, Layout.total_append, deletions_append]
    rw [Layout.total_cons] at later ⊢
    rw [Layout.total_cons]
    cases isRule : ruleAt U labels free s (some t) with
    | fold n =>
      -- the `ADD` behind is gone
      obtain ⟨t', same, found⟩ := ruleAt_fold isRule
      cases same
      have second : t.size = 2 := instruction t (by simp) .add (folds_some found).2.1
      have latest := merged fun r inside =>
        instruction r (List.mem_cons_of_mem _ (List.mem_cons_of_mem _ inside))
      rw [isRule] at here
      have two : (Rule.fold n).takes = 2 := rfl
      dsimp only
      omega
    | _ =>
      rw [isRule] at here
      dsimp only [Rule.takes] at here ⊢
      omega

end

/-! ## Lines -/

section
variable {read read' : Asm.Reader}

theorem lineSize_anywhere (pc pc' : Nat) {ts : List Token} (plain : ts.head? ≠ some Asm.dirOrg) :
    Asm.lineSize read pc ts = Asm.lineSize read pc' ts := by
  cases ts with
  | nil => rfl
  | cons op args =>
    have other : (op == Asm.dirOrg) = false :=
      beq_false_of_ne fun same => plain (congrArg some same)
    simp only [Asm.lineSize, other, Bool.false_eq_true, if_false]

theorem means_written {s : Statement} {m : Mnemonic} {i : Insn} (plain : Asm.Plain read)
    (op : s.op = some m.text) (ascii : ∀ a ∈ s.args, encode a = a) (means : Means read m s.args i)
    (pc : Nat) : ∃ out, Asm.lineSize read pc s.toLine.statement = .ok (2, out) := by
  have small : ∀ c ∈ m.text, c.toNat < 128 := by
    cases m <;> decide
  have words : s.toLine.statement = m.text :: s.args := by
    show (s.op.toList ++ s.args).map encode = _
    rw [op, List.map_append, (List.map_congr_left ascii).trans (List.map_id _)]
    exact congrArg (· :: s.args) (encode_ascii small)
  have other : ∀ d ∈ [Asm.dirOrg, Asm.dirByte, Asm.dirWord], (m.text == d) = false := by
    cases m <;> decide
  refine ⟨Asm.wordBytes (Asm.encode i), ?_⟩
  rw [words]
  simp only [Asm.lineSize, other Asm.dirOrg (by simp), other Asm.dirByte (by simp),
    other Asm.dirWord (by simp), Bool.false_eq_true, if_false, means.word plain]
  rfl

end

section
variable {U : Unicode} {labels : Labels} {free : Nat → Bool} {old : List Statement} {stop : Nat}
  {layout : Layout} {bytes : List Byte}

theorem below_relocated (follows : Follows U entry old stop) (placed : WellPlaced old stop bytes) :
    Asm.Below False (Asm.value (symbolsOf old) true)
      (Asm.value (symbolsOf (relocated U labels free old).flatten) true) := by
  have names := left_labels (@relocated_left U labels free old)
  intro a n known
  unfold Asm.value at known ⊢
  cases number : Asm.strtoul a with
  | some m =>
    rw [number] at known
    exact ⟨n, known, Nat.le_refl n, False.elim⟩
  | none =>
    rw [number] at known
    dsimp only at known ⊢
    cases found : Asm.lookup (symbolsOf old) a with
    | none =>
      rw [found] at known
      cases known
    | some symbol =>
      rw [found] at known
      obtain ⟨s, here, name, label, rfl⟩ := mem_symbolsOf.mp (List.mem_of_find?_eq_some found)
      have same : encode name = a := beq_iff_eq.mp
        (@List.find?_some _ (fun s : Symbol => s.name == a) _ _ found)
      cases known
      -- the label is still there, and its address has not risen
      obtain ⟨r, inside, label', moved⟩ := @anchored_moves U labels free old stop follows name s.pc
        ⟨s, here, label, rfl⟩
      rw [← same, lookup_symbolsOf (names ▸ placed.valid) (names ▸ placed.distinct) inside label']
      exact ⟨r.pc, rfl, Nat.le.intro moved, False.elim⟩

theorem encode_byteText : ∀ n < 256, encode (byteText n) = byteText n := by
  decide +kernel

theorem Image.written {symbols' : List Symbol} {s s' : Statement} {next : Option Statement}
    (assembled : Assembled old layout bytes) (follows : Follows U entry old stop)
    (printed : ∀ s ∈ old, Printed s) (here : s ∈ old)
    (below : Asm.Below False (Asm.value layout.symbols true) (Asm.value symbols' true))
    (addresses : Asm.Addresses symbols') (image : Image U labels free s next s') :
    ∃ out,
      Asm.lineSize (Asm.value symbols' true) s'.pc s'.toLine.statement = .ok (s'.size, out) := by
  have plain := Asm.value_plain addresses
  have spelled {m : Mnemonic} (isM : isOp s m = true) :
      ∃ i, Spelled layout.symbols bytes s m i := by
    obtain ⟨n, i, spelled⟩ := assembled_spelled assembled follows printed here
      (isInstruction_of_op isM)
    cases mnemonic_of_op spelled.op isM
    exact ⟨i, spelled⟩
  cases image with
  | same pc =>
    -- its names are read as no more than they were
    have was := (assembled_at assembled follows (fun s here => (printed s here).bare)
      (fun s here => (printed s here).other) here).1
    have plain := toLine_plain (printed s here).bare (printed s here).other
    obtain ⟨out, written⟩ := Asm.lineSize_first below plain was
    exact ⟨out, (lineSize_anywhere pc s.pc plain).trans written⟩
  | folded pc _ found =>
    obtain ⟨i, spelled⟩ := spelled (folds_some found).1
    obtain ⟨a, b, d, m, n, args, -, register, -, -, rfl⟩ := folds_arguments found
    have means := spelled.means
    have ascii := spelled.ascii
    rw [args] at means ascii
    -- the register is that of the `LD`, the sum a byte
    obtain ⟨x, first, -⟩ := means_ld register means
    have small : ((m + n) % 256).toNat < 256 := by omega
    generalize ((m + n) % 256).toNat = total at small ⊢
    have second : Asm.value symbols' true (byteText total) = .ok (BitVec.ofNat 8 total).toNat := by
      unfold Asm.value
      rw [strtoul_byteText total small, BitVec.toNat_ofNat, Nat.mod_eq_of_lt small]
      exact if_neg (by omega)
    rw [args]
    refine means_written plain rfl ?_ (.ld first second rfl) pc
    intro w operand
    obtain rfl | only := List.mem_cons.mp operand
    · exact ascii _ List.mem_cons_self
    · rw [List.mem_singleton.mp only]
      exact encode_byteText total small
  | tailCall pc _ tail =>
    simp only [isTailCall, Bool.and_eq_true] at tail
    obtain ⟨i, spelled⟩ := spelled tail.1.1.1
    have means := spelled.means
    have ascii := spelled.ascii
    generalize s.args = args at means ascii ⊢
    cases means with
    | alu form _ _ => simp [Asm.aluForms] at form
    | shift form _ => simp [Asm.shiftForms] at form
    | @call a z target =>
      -- the target has not risen, so it still is an address
      obtain ⟨n, known, less, -⟩ := below a _ target
      have bound := z.isLt
      have same : (BitVec.ofNat 12 n).toNat = n := by
        rw [BitVec.toNat_ofNat]
        omega
      exact means_written plain rfl ascii (.jp (same.symm ▸ known)) pc

theorem assembled_of_written (follows : Follows U entry old stop)
    (printed : ∀ s ∈ old, Printed s) (room : stop ≤ memorySize)
    (valid : ∀ name ∈ old.filterMap Statement.label, Asm.isName (encode name) = true)
    (distinct : (old.filterMap Statement.label).Nodup)
    (few : (old.filterMap Statement.label).length ≤ Asm.maxSymbols)
    (written : ∀ s ∈ old, ∃ out,
      Asm.lineSize (Asm.value (symbolsOf old) true) s.pc s.toLine.statement = .ok (s.size, out)) :
    ∃ bytes, Assembled old ⟨symbolsOf old, stop⟩ bytes := by
  choose! out written using written
  have bare : ∀ s ∈ old, s.op = none → s.args = [] := fun s here => (printed s here).bare
  have noOrg : ∀ s ∈ old, s.op ≠ some opOrg := fun s here => (printed s here).other
  have start : Layout.start.pc ≤ memorySize := by decide
  refine ⟨old.flatMap out, ?_⟩
  unfold Assembled
  rw [items_toLine]
  refine ⟨?_, ⟨stop, old.flatMap out⟩, ?_, rfl⟩
  · rw [← Asm.layout_items start]
    exact layout_placed follows bare noOrg rfl room valid (encoded_distinct valid distinct)
      ((Nat.zero_add _).trans_le few) (Asm.Extends.refl _) written
  · rw [← Asm.emit_items]
    exact emit_placed follows bare noOrg rfl written

theorem relocated_assembles (assembled : Assembled old layout bytes)
    (follows : Follows U entry old stop) (printed : ∀ s ∈ old, Printed s)
    (shorter : total Statement.size (relocated U labels free old).flatten ≤
      total Statement.size old) :
    ∃ layout' bytes', Assembled (relocated U labels free old).flatten layout' bytes' := by
  obtain ⟨rfl, placed⟩ := WellPlaced.of_assembled assembled follows
    (fun s here => (printed s here).bare) fun s here => (printed s here).other
  have names := left_labels (@relocated_left U labels free old)
  have printed' := @relocated_printed U labels free old printed
  obtain ⟨-, stop', follows'⟩ := rewrite_follows labels follows
    (fun s here => (printed s here).other) free
  have room : stop' ≤ memorySize := by
    have high := follows.stop
    have low := follows'.stop
    have room := placed.room
    omega
  have addresses : Asm.Addresses (symbolsOf (relocated U labels free old).flatten) := by
    intro symbol here
    obtain ⟨s, inside, name, label, rfl⟩ := mem_symbolsOf.mp here
    refine ⟨placed.valid name ?_, follows'.above s inside⟩
    rw [← names]
    exact List.mem_filterMap.mpr ⟨s, inside, label⟩
  refine ⟨_, assembled_of_written follows' printed' room (names ▸ placed.valid)
    (names ▸ placed.distinct) (names ▸ placed.few) ?_⟩
  intro s' inside
  obtain ⟨image, among, inside⟩ := List.mem_flatten.mp inside
  obtain ⟨s, here, gone | ⟨s'', next, only, image'⟩⟩ := forall₂_left
    (@relocated_left U labels free old) among
  · rw [gone.1] at inside
    cases inside
  · rw [only, List.mem_singleton] at inside
    rw [inside]
    exact image'.written assembled follows printed here (below_relocated follows placed) addresses

end

/-! ## The text -/

/-- A line with its words in upper case. -/
def upperLine (l : Asm.Line) : Asm.Line := ⟨l.label, l.statement.map Asm.normalize⟩

/-- An item that is read back from its printed line, but for the case of its words, and
assembles as it is. -/
structure ReadBackItem (l : Asm.Line) : Prop where
  item : Asm.IsItem (upperLine l)
  read : Asm.readLine (Asm.printItem l) = .ok (upperLine l)
  one : '\n' ∉ Asm.printItem l
  short : (Asm.printItem l).length ≤ 1023
  head : (upperLine l).statement.head? = l.statement.head?
  sized : ∀ symbols resolve pc, Asm.lineSize (Asm.value symbols resolve) pc (upperLine l).statement =
    Asm.lineSize (Asm.value symbols resolve) pc l.statement

structure ReadBack (s : Statement) : Prop where
  lines : (statementLines s).map encode = s.items.map fun item => Asm.printItem (encodeLine item)
  each : ∀ item ∈ s.items, ReadBackItem (encodeLine item)

theorem readBack_item {l : Asm.Line} (item : Asm.IsItem l)
    (short : (Asm.printItem l).length ≤ 1023) : ReadBackItem l := by
  have same : upperLine l = l := by
    cases item with
    | label _ => rfl
    | statement normal _ _ =>
      unfold upperLine
      rw [Asm.normal_args normal]
  exact ⟨same.symm ▸ item, same.symm ▸ item.read, item.one, short, by rw [same],
    fun _ _ _ => by rw [same]⟩

theorem upper_layout {l : Asm.Line} (readBack : ReadBackItem l) (st : Layout) :
    Asm.layoutLine st (upperLine l) = Asm.layoutLine st l := by
  unfold Asm.layoutLine
  simp only [readBack.sized]
  rfl

theorem upper_emit {l : Asm.Line} (readBack : ReadBackItem l) (symbols : List Symbol)
    (o : Asm.Output) : Asm.emitLine symbols o (upperLine l) = Asm.emitLine symbols o l := by
  unfold Asm.emitLine
  rw [readBack.sized, readBack.head]

theorem foldlM_upper {S : Type} {step : S → Asm.Line → Except Asm.Problem S} {lines : List Asm.Line}
    (same : ∀ l ∈ lines, ∀ st, step st (upperLine l) = step st l) (st : S) :
    (lines.map upperLine).foldlM step st = lines.foldlM step st := by
  induction lines generalizing st with
  | nil => rfl
  | cons l rest ih =>
    rw [List.map_cons, List.foldlM_cons, List.foldlM_cons, same l List.mem_cons_self]
    exact bind_congr fun st' => ih (fun r later => same r (List.mem_cons_of_mem _ later)) st'

theorem reads_readBack {lines : List Asm.Line} (items : ∀ l ∈ lines, ReadBackItem l) :
    Asm.Reads (lines.map Asm.printItem) (lines.map upperLine) := by
  induction lines with
  | nil => exact .nil
  | cons l rest ih =>
    exact .cons (items l List.mem_cons_self).read
      (ih fun r later => items r (List.mem_cons_of_mem _ later))

theorem assemble_readBack {statements : List Statement} {layout : Layout} {bytes : List Byte}
    (readBack : ∀ s ∈ statements, ReadBack s) (assembled : Assembled statements layout bytes) :
    Asm.assemble (encode (canonicalize statements)) = .ok bytes := by
  let is := (statements.flatMap Statement.items).map encodeLine
  have items : ∀ l ∈ is, ReadBackItem l := by
    intro l here
    obtain ⟨item, inside, rfl⟩ := List.mem_map.mp here
    obtain ⟨s, there, inside⟩ := List.mem_flatMap.mp inside
    exact (readBack s there).each item inside
  have lines : (statements.flatMap statementLines).map encode = is.map Asm.printItem := by
    rw [List.map_flatMap, List.map_map, List.map_flatMap]
    exact List.flatMap_congr fun s here => (readBack s here).lines
  have upper : Asm.Assembles (is.map upperLine) layout bytes := by
    obtain ⟨first, out, second, same⟩ := assembled
    exact ⟨(foldlM_upper (fun l here => upper_layout (items l here)) _).trans first, out,
      (foldlM_upper (fun l here => upper_emit (items l here) _) _).trans second, same⟩
  have clean : ∀ l ∈ is.map upperLine, Asm.IsItem l := by
    intro l here
    obtain ⟨r, inside, rfl⟩ := List.mem_map.mp here
    exact (items r inside).item
  have reads : ∃ lines', Asm.Reads (Asm.fgets (encode (canonicalize statements))) lines' ∧
      Asm.items lines' = is.map upperLine := by
    unfold canonicalize
    by_cases empty : statements.flatMap statementLines = []
    · rw [empty] at lines ⊢
      rw [List.map_eq_nil_iff.mp lines.symm]
      exact ⟨[⟨none, []⟩], .cons rfl .nil, rfl⟩
    · rw [encode_joinLines empty, lines]
      obtain ⟨lines', reads', same⟩ := Asm.reads_printed (fun text here => by
        obtain ⟨l, inside, rfl⟩ := List.mem_map.mp here
        exact ⟨(items l inside).one, (items l inside).short⟩) (reads_readBack items)
      rw [Asm.items_of_isItem clean] at same
      exact ⟨lines', reads', same⟩
  obtain ⟨lines', reads', same⟩ := reads
  exact Asm.assemble_ok.mpr ⟨lines', layout, reads', same.symm ▸ upper⟩

/-! ## The images as text -/

theorem readBack_statement {s : Statement} {op : Token} (isOp : s.op = some op) (nonempty : op ≠ [])
    (words : ∀ w ∈ s.args, w ≠ [])
    (label : ∀ name, s.label = some name → name ≠ [] ∧ ReadBackItem ⟨some (encode name), []⟩)
    (item : ReadBackItem (encodeLine ⟨none, op :: s.args⟩)) : ReadBack s := by
  have shape : s.items = (s.label.map fun name => (⟨some name, []⟩ : Asm.Line)).toList ++
      [⟨none, op :: s.args⟩] := by
    unfold Statement.items Asm.Line.items
    rw [isOp]
    cases s.label <;> rfl
  constructor
  · rw [shape]
    unfold statementLines
    rw [isOp, present_some nonempty, List.map_append, List.map_append]
    congr 1
    · cases named : s.label with
      | none => rfl
      | some name =>
        rw [present_some (label name named).1]
        show [encode (name ++ [':'])] = [encode name ++ [':']]
        rw [encode_append]
        rfl
    · exact congrArg (fun line => [line]) (encode_statement words)
  · intro r here
    rw [shape] at here
    obtain first | second := List.mem_append.mp here
    · obtain ⟨name, named, rfl⟩ := Option.map_eq_some_iff.mp (Option.mem_toList.mp first)
      exact (label name named).2
    · rw [List.mem_singleton.mp second]
      exact item

/-- The names of the registers. -/
def registerNames : List Token := "0123456789ABCDEF".toList.map fun c => ['V', c]

theorem mem_registerNames {a : Token} (register : isRegister a = true) : a ∈ registerNames := by
  unfold isRegister at register
  split at register
  · exact List.mem_map_of_mem (List.contains_iff_mem.mp register)
  · cases register

theorem registerNames_facts : ∀ a ∈ registerNames, encode a = a ∧ a ≠ [] ∧ a.length = 2 ∧
    (∀ c ∈ a, Asm.isLetter c = true) ∧ Asm.normalize a = a ∧ (Asm.reg a).isOk = true := by
  decide

theorem byteText_facts : ∀ n < 256, byteText n ≠ [] ∧ (byteText n).length = 4 ∧
    (∀ c ∈ byteText n, Asm.isLetter c = true) ∧
    ∀ t ∈ [Asm.normalize (byteText n), byteText n], Asm.strtoul t = some n ∧
      t ∉ [Asm.wordDT, wordK, Asm.wordMemory] ∧ Asm.startsWithV t = false := by
  decide +kernel

theorem loadWord_byteText {a : Token} {x : Reg} (known : Asm.reg a = .ok x) {n : Nat}
    (small : n < 256) (symbols : List Symbol) (resolve : Bool) :
    ∀ t ∈ [Asm.normalize (byteText n), byteText n],
      Asm.loadWord (Asm.value symbols resolve) a t =
        .ok (0x6000#16 ||| Asm.atX x ||| BitVec.ofNat 16 n) := by
  intro t here
  obtain ⟨number, other, digit⟩ := (byteText_facts n small).2.2.2 t here
  simp only [List.mem_cons, List.not_mem_nil, or_false, not_or] at other
  have read : Asm.value symbols resolve t = .ok n := by
    unfold Asm.value
    rw [number]
    exact if_neg (by omega)
  have fits : Asm.range n 0xff .byteRange = .ok () := Asm.range_ok.mpr (by omega)
  rw [Asm.loadWord_reg known, beq_false_of_ne other.1, beq_false_of_ne other.2.1,
    beq_false_of_ne other.2.2, digit]
  simp only [Bool.false_eq_true, if_false, Asm.byte, Asm.immediate, read, bind, Except.bind, fits]
  rfl

theorem readBack_fold {a : Token} (register : isRegister a = true) {n : Nat} (small : n < 256) :
    ReadBackItem ⟨none, [Mnemonic.ld.text, a, byteText n]⟩ := by
  obtain ⟨-, nonempty, length, letters, upper, isReg⟩ :=
    registerNames_facts a (mem_registerNames register)
  obtain ⟨x, known⟩ : ∃ x, Asm.reg a = .ok x := by
    cases known : Asm.reg a with
    | ok x => exact ⟨x, rfl⟩
    | error _ =>
      rw [known] at isReg
      cases isReg
  -- The made operand is printed in lower case and read back in upper case.
  obtain ⟨nonempty', length', letters', -⟩ := byteText_facts n small
  have first : Asm.IsWord a := ⟨nonempty, letters⟩
  have second : Asm.IsWord (byteText n) := ⟨nonempty', letters'⟩
  have op : Asm.IsWord Mnemonic.ld.text := ⟨by decide, by decide⟩
  have words : ∀ w ∈ [a, byteText n], Asm.IsWord w := by
    intro w here
    obtain rfl | only := List.mem_cons.mp here
    · exact first
    · exact List.mem_singleton.mp only ▸ second
  have few : [a, byteText n].length < Asm.maxTokens := (by decide : 2 < Asm.maxTokens)
  have read := @Asm.readLine_statement Mnemonic.ld.text [a, byteText n] op words few (by decide) []
    (.inl rfl) List.not_mem_nil
  rw [List.append_nil] at read
  have shape : upperLine ⟨none, [Mnemonic.ld.text, a, byteText n]⟩ =
      ⟨none, [Mnemonic.ld.text, a, Asm.normalize (byteText n)]⟩ := by
    show (⟨none, [_, Asm.normalize a, _]⟩ : Asm.Line) = _
    rw [upper]
    rfl
  constructor
  case item =>
    rw [shape]
    refine .statement ?_ few (by decide)
    intro w here
    simp only [List.mem_cons, List.not_mem_nil, or_false] at here
    obtain rfl | rfl | rfl := here
    · exact ⟨op, by decide⟩
    · exact ⟨first, upper⟩
    · exact ⟨second.normalize, Asm.normalize_idem _⟩
  case read => exact read
  case one =>
    have all : ∀ w ∈ [Mnemonic.ld.text, a, byteText n], Asm.IsWord w :=
      List.forall_mem_cons.mpr ⟨op, words⟩
    exact Asm.not_mem_printStatement all (by decide) (by decide) (by decide)
  case short =>
    show (Asm.indentation ++ Mnemonic.ld.text ++ (' ' :: a ++ ',' :: ' ' :: byteText n)).length ≤ _
    simp only [List.length_append, List.length_cons, length, length']
    decide
  case head => rfl
  case sized =>
    intro symbols resolve pc
    rw [shape]
    have loads := loadWord_byteText known small symbols resolve
    show (Asm.loadWord _ a (Asm.normalize (byteText n)) >>= fun w => _) =
      (Asm.loadWord _ a (byteText n) >>= fun w => _)
    rw [loads _ (by simp), loads _ (by simp)]

section
variable {U : Unicode} {labels : Labels} {free : Nat → Bool}

theorem Image.readBack {s s' : Statement} {next : Option Statement} (named : s.label ≠ some [])
    (bare : s.op = none → s.args = []) (clean : ∀ item ∈ s.items, Asm.IsItem (encodeLine item))
    (short : ∀ item ∈ s.items, (Asm.printItem (encodeLine item)).length ≤ 1023)
    (image : Image U labels free s next s') : ReadBack s' := by
  have label (name : Token) (isLabel : s.label = some name) :
      name ≠ [] ∧ ReadBackItem ⟨some (encode name), []⟩ := by
    have here : (⟨some name, []⟩ : Asm.Line) ∈ s.items := by
      unfold Statement.items Asm.Line.items
      rw [isLabel]
      exact List.mem_append_left _ List.mem_cons_self
    exact ⟨fun empty => named (empty ▸ isLabel), readBack_item (clean _ here) (short _ here)⟩
  cases image with
  | same pc =>
    exact ⟨statementLines_items named bare clean,
      fun item here => readBack_item (clean item here) (short item here)⟩
  | folded pc _ found =>
    obtain ⟨a, b, d, m, n, args, -, register, -, -, rfl⟩ := folds_arguments found
    have small : ((m + n) % 256).toNat < 256 := by omega
    -- Of the folded sum only its size matters.
    generalize ((m + n) % 256).toNat = total at small ⊢
    rw [args]
    have item := readBack_fold register small
    refine readBack_statement rfl (by decide) ?_ label ?_
    · intro w operand
      simp only [List.headD_cons, List.mem_cons, List.not_mem_nil, or_false] at operand
      obtain rfl | rfl := operand
      · exact (registerNames_facts _ (mem_registerNames register)).2.1
      · exact (byteText_facts total small).1
    · have ascii := (registerNames_facts a (mem_registerNames register)).1
      have shape : encodeLine ⟨none, [Mnemonic.ld.text, a, byteText total]⟩ =
          ⟨none, [Mnemonic.ld.text, a, byteText total]⟩ := by
        show (⟨none, [_, encode a, encode (byteText total)]⟩ : Asm.Line) = _
        rw [ascii, encode_byteText total small]
        rfl
      exact shape.symm ▸ item
  | tailCall pc _ tail =>
    -- `JP` is shorter than `CALL`, so the line still fits.
    simp only [isTailCall, Bool.and_eq_true] at tail
    have isOp := beq_iff_eq.mp tail.1.1.1
    have here : (⟨none, Mnemonic.call.text :: s.args⟩ : Asm.Line) ∈ s.items := by
      unfold Statement.items Asm.Line.items
      rw [isOp]
      exact List.mem_append_right _ List.mem_cons_self
    have was := clean _ here
    have size := short _ here
    refine readBack_statement rfl (by decide) ?_ label (readBack_item ?_ ?_)
    · intro w operand
      exact nonempty_of_isItem was w (List.mem_cons_of_mem _ operand)
    · have old : Asm.IsItem ⟨none, encode Mnemonic.call.text :: s.args.map encode⟩ := was
      show Asm.IsItem ⟨none, encode Mnemonic.jp.text :: s.args.map encode⟩
      generalize s.args.map encode = operands at old ⊢
      cases old with
      | statement normal few _ =>
        refine .statement ?_ few (by decide)
        intro w inside
        obtain rfl | later := List.mem_cons.mp inside
        · exact ⟨⟨by decide, by decide⟩, by decide⟩
        · exact normal w (List.mem_cons_of_mem _ later)
    · have old : (Asm.indentation ++ encode Mnemonic.call.text ++
          Asm.spaced (s.args.map encode)).length ≤ 1023 := size
      have op : (encode Mnemonic.call.text).length = 4 := by decide
      have op' : (encode Mnemonic.jp.text).length = 2 := by decide
      show (Asm.indentation ++ encode Mnemonic.jp.text ++
        Asm.spaced (s.args.map encode)).length ≤ 1023
      rw [List.length_append, List.length_append] at old ⊢
      omega

end

/-! ## The optimizer -/

section
variable {U : Unicode} {text : Text} {statements out : List Statement} {labels : Labels}
  {changes : List Change} {layout : Layout} {bytes : List Byte}

theorem optimizePeepholes_rewrite
    (returned : optimizePeepholes U statements labels = .ok (out, changes)) :
    ∃ free, rewrite U (symbolize U statements labels).2 free (symbolize U statements labels).1 =
      (out, changes) := by
  unfold optimizePeepholes at returned
  dsimp only at returned
  split at returned
  · cases returned
  · split at returned
    · exact ⟨_, Except.ok.inj returned⟩
    · cases returned

theorem layOut_lines (pc : Nat) (statements : List Statement) :
    (layOut pc statements).flatMap statementLines = statements.flatMap statementLines := by
  induction statements generalizing pc with
  | nil => rfl
  | cons s rest ih =>
    rw [layOut, List.flatMap_cons, List.flatMap_cons, ih]
    rfl

/-- The statements that are returned assemble where the symbolized ones do, and so does their
text. -/
theorem symbolized_assembles
    (returned : optimizePeepholes U statements labels = .ok (out, changes)) {stop : Nat}
    (assembled : Assembled (symbolize U statements labels).1 layout bytes)
    (follows : Follows U entry (symbolize U statements labels).1 stop)
    (printed : ∀ s ∈ (symbolize U statements labels).1, Printed s) :
    ∃ layout' bytes', Assembled out layout' bytes' ∧
      bytes'.length + 2 * deletions changes = bytes.length ∧
      ((∀ s ∈ (symbolize U statements labels).1, s.label ≠ some []) →
        Clean (symbolize U statements labels).1 → Short (symbolize U statements labels).1 →
        Asm.assemble (encode (canonicalize out)) = .ok bytes') := by
  obtain ⟨free, rewritten⟩ := optimizePeepholes_rewrite returned
  have sizes := @rewrite_total U (symbolize U statements labels).2 free
    (symbolize U statements labels).1 fun s here m => size_of_mnemonic follows here
  obtain ⟨same, stop', follows'⟩ := rewrite_follows (symbolize U statements labels).2 follows
    (fun s here => (printed s here).other) free
  rw [rewritten] at sizes same
  dsimp only at sizes
  have shape := layOut_total entry out
  rw [same] at shape
  obtain ⟨layout', bytes', assembled'⟩ := relocated_assembles assembled follows printed
    (Nat.le.intro (shape ▸ sizes))
  have printed' := @relocated_printed U (symbolize U statements labels).2 free _ printed
  have long := (assembled_length assembled follows printed).1
  have long' := (assembled_length assembled' follows' printed').1
  have high := follows.stop
  have low := follows'.stop
  refine ⟨layout', bytes', ?_, by omega, fun named clean short => ?_⟩
  · unfold Assembled at assembled' ⊢
    rw [← same, layOut_items] at assembled'
    exact assembled'
  · -- addresses are not printed
    have text : canonicalize (layOut entry out) = canonicalize out := by
      unfold canonicalize
      rw [layOut_lines]
    rw [← text, same]
    refine assemble_readBack (fun s' inside => ?_) assembled'
    obtain ⟨image, among, inside⟩ := List.mem_flatten.mp inside
    obtain ⟨s, here, gone | ⟨s'', next, only, image'⟩⟩ := forall₂_left
      (@relocated_left U (symbolize U statements labels).2 free
        (symbolize U statements labels).1) among
    · rw [gone.1] at inside
      cases inside
    · rw [only, List.mem_singleton] at inside
      rw [inside]
      exact image'.readBack (named s here) (printed s here).bare
        (fun item within => clean item (List.mem_flatMap.mpr ⟨s, here, within⟩))
        fun item within => short item (List.mem_flatMap.mpr ⟨s, here, within⟩)

theorem symbolize_assembles (parsed : parseSource U text = .ok (statements, labels))
    (good : Symbolizable U statements labels) (assembled : Assembled statements layout bytes)
    (returned : optimizePeepholes U statements labels = .ok (out, changes)) :
    ∃ layout' stop, Assembled (symbolize U statements labels).1 layout' bytes ∧
      Follows U entry (symbolize U statements labels).1 stop ∧
      ∀ s ∈ (symbolize U statements labels).1, Printed s := by
  obtain ⟨a, -, safe, -⟩ := optimizePeepholes_ok returned
  have org := (not_or.mp (relocationHazards_eq_nil.mp safe)).1
  have noOrg : ∀ s ∈ statements, s.op ≠ some opOrg := by
    intro s here isOrg
    obtain ⟨labels', copied⟩ := @symbolizeFrom_copy U (generated U statements labels) labels labels
      statements s here
    obtain ⟨-, -, op, -⟩ :=
      @symbolizeOperand_fields U (generated U statements labels) labels labels' s
    exact org ⟨_, copied, op.trans isOrg⟩
  have labelled := parseSource_labelled parsed
  obtain ⟨stop, follows⟩ := parseSource_follows parsed
  have printed : ∀ s ∈ statements, Printed s := fun s here => ⟨labelled.bare s here, noOrg s here⟩
  have printed' := @symbolize_printed U statements labels printed
  have follows' : Follows U entry (symbolize U statements labels).1 stop :=
    symbolizeFrom_follows follows noOrg
  obtain ⟨-, placed⟩ := WellPlaced.of_assembled assembled follows labelled.bare noOrg
  have placed' := (symbolize_placed_iff labelled (parseSource_listed parsed) printed follows
    assembled placed).mpr good
  exact ⟨_, stop, placed'.assembled follows' (fun q here => (printed' q here).bare)
    (fun q here => (printed' q here).other), follows', printed'⟩

/-- Where symbolization keeps the bytes, what is returned assembles, to two bytes less for each
deletion that is reported; and if its lines are not too long, so does its text. -/
theorem optimize_assembles (parsed : parseSource U text = .ok (statements, labels))
    (good : Symbolizable U statements labels) (assembled : Assembled statements layout bytes)
    (returned : optimizePeepholes U statements labels = .ok (out, changes)) :
    ∃ layout' bytes', Assembled out layout' bytes' ∧
      bytes'.length + 2 * deletions changes = bytes.length ∧
      (Clean statements → Short (symbolize U statements labels).1 →
        Asm.assemble (encode (canonicalize out)) = .ok bytes') := by
  have labelled := parseSource_labelled parsed
  obtain ⟨layout₁, stop, symbolic, follows, printed⟩ :=
    symbolize_assembles parsed good assembled returned
  obtain ⟨layout', bytes', assembled', length, whole⟩ :=
    symbolized_assembles returned symbolic follows printed
  exact ⟨layout', bytes', assembled', length, fun clean =>
    whole (symbolize_named labelled (parseSource_listed parsed)).2 (symbolize_clean labelled clean)⟩

end

/-- The word keeps its bytes behind a label that is made, and the no-op goes. -/
theorem optimize_assembles_word :
    ∃ out changes layout' bytes',
      optimizePeepholes ascii (pointsAtStatements "0X20A".toList) pointsAtLabels =
        .ok (out, changes) ∧
      Assembled out layout' bytes' ∧ bytes'.length = 10 ∧
      Asm.assemble (encode (canonicalize out)) = .ok bytes' := by
  have parsed : parseSource ascii (pointsAt "0X20A".toList) =
      .ok (pointsAtStatements "0X20A".toList, pointsAtLabels) := by
    decide +kernel
  have assembled : Assembled (pointsAtStatements "0X20A".toList) ⟨[⟨['L'], 0x206⟩], 0x20c⟩
      [0x60, 0x01, 0x81, 0x10, 0xa2, 0x0a, 0x12, 0x06, 0xf0, 0, 0x02, 0x08] :=
    ⟨by decide +kernel, ⟨0x20c, _⟩, by decide +kernel, rfl⟩
  have only : ∀ r ∈ pointsAtStatements "0X20A".toList,
      namedByNumber ascii (pointsAtStatements "0X20A".toList) pointsAtLabels r.pc = true →
        r.pc = 0x20a := by
    decide +kernel
  have numbers : ∀ s ∈ pointsAtStatements "0X20A".toList,
      numericLast ascii s = true → target ascii pointsAtLabels s = some ((0x20a : Nat) : Int) →
        s.args.getLast?.all (fun last => Asm.strtoul (encode last) == some 0x20a) = true := by
    decide +kernel
  have good : Symbolizable ascii (pointsAtStatements "0X20A".toList) pointsAtLabels := by
    refine ⟨⟨_, _, assembled⟩, by decide +kernel, by decide +kernel, ?_⟩
    intro s here r inside named numeric isTarget last isLast
    rw [only r inside named] at isTarget ⊢
    have same := numbers s here numeric isTarget
    rw [isLast] at same
    exact beq_iff_eq.mp same
  cases returned : optimizePeepholes ascii (pointsAtStatements "0X20A".toList) pointsAtLabels with
  | error _ =>
    have fine : (optimizePeepholes ascii (pointsAtStatements "0X20A".toList)
        pointsAtLabels).isOk = true := by
      decide +kernel
    rw [returned] at fine
    cases fine
  | ok r =>
    obtain ⟨out, changes⟩ := r
    obtain ⟨layout', bytes', assembled', length, read⟩ :=
      optimize_assembles parsed good assembled returned
    have clean : ((pointsAtStatements "0X20A".toList).flatMap Statement.items).all
        (fun item => (encodeLine item).isItem) = true := by
      decide +kernel
    have short : ((symbolize ascii (pointsAtStatements "0X20A".toList) pointsAtLabels).1.flatMap
        Statement.items).all (fun item => (Asm.printItem (encodeLine item)).length ≤ 1023) =
          true := by
      decide +kernel
    have one : (optimizePeepholes ascii (pointsAtStatements "0X20A".toList)
        pointsAtLabels).toOption.all (fun r => deletions r.2 == 1) = true := by
      decide +kernel
    rw [returned] at one
    rw [(beq_iff_eq.mp one : deletions changes = 1)] at length
    refine ⟨out, changes, layout', bytes', rfl, assembled', Nat.add_right_cancel length, read ?_ ?_⟩
    · exact fun item here => Asm.isItem_of (List.all_eq_true.mp clean item here)
    · exact fun item here => of_decide_eq_true (List.all_eq_true.mp short item here)

end ChipEight.Opt
