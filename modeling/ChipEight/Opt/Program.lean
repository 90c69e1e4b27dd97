import ChipEight.Asm.Meaning
import ChipEight.Opt.Analyze
import ChipEight.Opt.Reading

/-! What the statements of an accepted text are in its ROM.

Where the front ends read a text alike, a statement `analyze` takes for an instruction
stands for one, and the word of that instruction is in the ROM at the address of the
statement.
-/

set_option autoImplicit false

namespace ChipEight.Opt

open Asm (Text Token Line Symbol Mnemonic Means Ascii wordBytes normalize)

/-! ## Addresses -/

/-- Statements that follow each other from one address to another. -/
inductive Follows (U : Unicode) : Nat → List Statement → Nat → Prop where
  | nil {pc : Nat} : Follows U pc [] pc
  | cons {s : Statement} {rest : List Statement} {stop : Nat}
      (sized : sizeOf U s.line s.pc s.op s.args = .ok s.size)
      (follows : Follows U (s.pc + s.size) rest stop) : Follows U s.pc (s :: rest) stop

theorem Follows.append {U : Unicode} {start middle stop : Nat} {before after : List Statement}
    (first : Follows U start before middle) (second : Follows U middle after stop) :
    Follows U start (before ++ after) stop := by
  induction first with
  | nil => exact second
  | cons sized _ ih => exact .cons sized (ih second)

theorem parseLine_follows {U : Unicode} {st st' : Parsed} {numbered : Nat × Text}
    (parsed : parseLine U st numbered = .ok st') :
    ∃ added, st'.statements = st.statements ++ added ∧ Follows U st.pc added st'.pc := by
  unfold parseLine at parsed
  dsimp only at parsed
  split at parsed
  · cases parsed
    exact ⟨[], (List.append_nil _).symm, .nil⟩
  · obtain ⟨labels, -, parsed⟩ := Asm.bind_ok.mp parsed
    obtain ⟨size, sized, parsed⟩ := Asm.bind_ok.mp parsed
    split at parsed
    · cases parsed
    · cases parsed
      let r := splitLabel U (tokens numbered.2)
      let new : Statement := ⟨numbered.1, r.1, r.2.head?.map (upper U), r.2.tail.map (upper U),
        st.pc, size⟩
      exact ⟨[new], rfl, @Follows.cons U new [] _ sized .nil⟩

theorem parse_follows {U : Unicode} {numbered : List (Nat × Text)} {st st' : Parsed}
    (parsed : numbered.foldlM (parseLine U) st = .ok st') :
    ∃ added, st'.statements = st.statements ++ added ∧ Follows U st.pc added st'.pc := by
  induction numbered generalizing st with
  | nil =>
    cases parsed
    exact ⟨[], (List.append_nil _).symm, .nil⟩
  | cons r rest ih =>
    rw [List.foldlM_cons] at parsed
    obtain ⟨st₁, first, parsed⟩ := Asm.bind_ok.mp parsed
    obtain ⟨added, grown, follows⟩ := parseLine_follows first
    obtain ⟨added', grown', follows'⟩ := ih parsed
    refine ⟨added ++ added', ?_, follows.append follows'⟩
    rw [grown', grown, List.append_assoc]

theorem parseSource_follows {U : Unicode} {text : Text} {statements : List Statement}
    {labels : Labels} (parsed : parseSource U text = .ok (statements, labels)) :
    ∃ stop, Follows U entry statements stop := by
  obtain ⟨st, folded, same⟩ := Asm.bind_ok.mp parsed
  obtain ⟨added, grown, follows⟩ := parse_follows folded
  cases same
  rw [grown]
  exact ⟨st.pc, follows⟩

/-! ## Words -/

/-- The operand of an `.ORG` is the same number to both front ends. -/
def SameOrg (U : Unicode) (statement : List Token) : Prop :=
  ∀ a, statement = [opOrg, a] →
    ∃ n : Nat, Asm.strtoul (encode a) = some n ∧ parseNumber U a = some (n : Int)

/-- The words of a statement. -/
def Statement.words (s : Statement) : List Token := s.op.toList ++ s.args

theorem words_head_tail {s : Statement} (bare : s.op = none → s.args = []) :
    s.words.head? = s.op ∧ s.words.tail = s.args := by
  unfold Statement.words
  cases op : s.op with
  | none =>
    rw [bare op]
    exact ⟨rfl, rfl⟩
  | some op => exact ⟨rfl, rfl⟩

theorem isInstruction_some {s : Statement} (isInsn : isInstruction s = true) :
    ∃ op, s.op = some op ∧ op.head? ≠ some '.' := by
  unfold isInstruction at isInsn
  split at isInsn
  · rename_i op
    refine ⟨_, op, fun dot => ?_⟩
    rw [Option.some.inj dot] at isInsn
    cases isInsn
  · cases isInsn

theorem notDirective {op d : Token} (plain : op.head? ≠ some '.') (dot : d.head? = some '.') :
    (op == d) = false :=
  beq_false_of_ne fun same => plain (same ▸ dot)

theorem encode_notDirective {op d : Token} (plain : op.head? ≠ some '.')
    (small : ∀ c ∈ d, c.toNat < 128) (dot : d.head? = some '.') : (encode op == d) = false :=
  beq_false_of_ne fun same => plain ((encode_eq_ascii small).mp same ▸ dot)

theorem instruction_words {s : Statement} {op : Token} (isOp : s.op = some op) :
    (encodeLine ⟨s.label, s.words⟩).statement = encode op :: s.args.map encode := by
  unfold Statement.words
  rw [isOp]
  rfl

theorem lineSize_instruction {read : Asm.Reader} {s : Statement} (isInsn : isInstruction s = true)
    {pc size : Nat} {out : List Byte}
    (measured : Asm.lineSize read pc (encodeLine ⟨s.label, s.words⟩).statement =
      .ok (size, out)) :
    ∃ op w, s.op = some op ∧ Asm.instruction read (encode op) (s.args.map encode) = .ok w ∧
      size = 2 ∧ out = wordBytes w := by
  obtain ⟨op, isOp, plain⟩ := isInstruction_some isInsn
  have other {d : Token} (small : ∀ c ∈ d, c.toNat < 128) := encode_notDirective plain small
  rw [instruction_words isOp] at measured
  simp only [Asm.lineSize, @other Asm.dirOrg (by decide) rfl, @other Asm.dirByte (by decide) rfl,
    @other Asm.dirWord (by decide) rfl, Bool.false_eq_true, if_false] at measured
  obtain ⟨w, encoded, same⟩ := Asm.bind_ok.mp measured
  cases same
  exact ⟨op, w, isOp, encoded, rfl, rfl⟩

theorem emit_statement {U : Unicode} {symbols : List Symbol} {s : Statement} {o o' : Asm.Output}
    (bare : s.op = none → s.args = []) (org : SameOrg U s.words)
    (sized : sizeOf U s.line s.pc s.op s.args = .ok s.size) (here : o.pc = s.pc)
    (emitted : (s.items.map encodeLine).foldlM (Asm.emitLine symbols) o = .ok o') :
    o'.pc = s.pc + s.size ∧ o'.bytes.length + o.pc = o.bytes.length + o'.pc ∧
      (isInstruction s = true → ∃ op w, s.op = some op ∧
        Asm.instruction (Asm.value symbols true) (encode op) (s.args.map encode) = .ok w ∧
        o'.bytes = o.bytes ++ wordBytes w) := by
  rw [Statement.items, ← items_encode, ← Asm.emitLine_items] at emitted
  have length := Asm.emitLine_length emitted
  obtain ⟨size, out, measured, pc, bytes⟩ := Asm.emitLine_ok emitted
  obtain ⟨head, tail⟩ := words_head_tail bare
  rw [here] at measured pc
  have known := @sizeOf_keeps U symbols true s.line s.pc size out s.words org measured
  rw [head, tail, sized] at known
  refine ⟨pc.trans (congrArg (s.pc + ·) (Except.ok.inj known).symm), length, fun isInsn => ?_⟩
  obtain ⟨op, w, isOp, encoded, -, rfl⟩ := lineSize_instruction isInsn measured
  refine ⟨op, w, isOp, encoded, ?_⟩
  -- nothing is put in front of it, as for an `.ORG`
  rw [bytes]
  show _ ++ (if (encodeLine ⟨s.label, s.words⟩).statement.head? == some Asm.dirOrg
    then _ else _) = _
  obtain ⟨op', isOp', plain⟩ := isInstruction_some isInsn
  have notOrg := @encode_notDirective op' Asm.dirOrg plain (by decide) rfl
  rw [instruction_words isOp', List.head?_cons, if_neg]
  intro same
  rw [Option.some.inj (beq_iff_eq.mp same), beq_self_eq_true] at notOrg
  cases notOrg

/-- Where the word of a statement is in the ROM. -/
structure WordAt (bytes : List Byte) (pc : Nat) (w : Word) : Prop where
  split : ∃ front rest, bytes = front ++ wordBytes w ++ rest ∧ entry + front.length = pc

theorem emit_statements {U : Unicode} {symbols : List Symbol} {statements : List Statement}
    {start stop : Nat} {o o' : Asm.Output} (bare : ∀ s ∈ statements, s.op = none → s.args = [])
    (org : ∀ s ∈ statements, SameOrg U s.words) (follows : Follows U start statements stop)
    (here : o.pc = start) (written : entry + o.bytes.length = start)
    (emitted : ((statements.flatMap Statement.items).map encodeLine).foldlM
      (Asm.emitLine symbols) o = .ok o') :
    ∀ s ∈ statements, isInstruction s = true → ∃ op w, s.op = some op ∧
      Asm.instruction (Asm.value symbols true) (encode op) (s.args.map encode) = .ok w ∧
      WordAt o'.bytes s.pc w := by
  induction follows generalizing o with
  | nil => exact fun s here => absurd here List.not_mem_nil
  | @cons s rest stop sized _ ih =>
    rw [List.flatMap_cons, List.map_append, List.foldlM_append] at emitted
    obtain ⟨o₁, first, others⟩ := Asm.bind_ok.mp emitted
    obtain ⟨pc, length, word⟩ := emit_statement (bare s List.mem_cons_self)
      (org s List.mem_cons_self) sized here first
    intro s' inside isInsn
    obtain rfl | later := List.mem_cons.mp inside
    · obtain ⟨op, w, named, encoded, bytes⟩ := word isInsn
      obtain ⟨more, split⟩ := Asm.emit_prefix others
      refine ⟨op, w, named, encoded, ⟨o.bytes, more, ?_, written⟩⟩
      rw [split, bytes]
    · exact ih (fun s later => bare s (List.mem_cons_of_mem _ later))
        (fun s later => org s (List.mem_cons_of_mem _ later)) pc (by omega) others s' later isInsn

/-- A statement that stands for an instruction whose word is in the ROM. -/
structure Stands (labels : Labels) (bytes : List Byte) (s : Statement) (m : Mnemonic) (i : Insn) :
    Prop where
  op : s.op = some m.text
  means : Means (Asm.value (encodeLabels labels) true) m s.args i
  word : ∃ w, WordAt bytes s.pc w ∧ decode w = some i

section
variable {U : Unicode} {text : Text} {bytes : List Byte} {statements : List Statement}
  {labels : Labels}

theorem Parses.words {is : List Line} (parses : Parses statements is) {s : Statement}
    (here : s ∈ statements) (some : s.words ≠ []) : ⟨none, s.words⟩ ∈ is := by
  rw [← parses.items]
  refine List.mem_flatMap.mpr ⟨s, here, List.mem_append_right _ ?_⟩
  show _ ∈ if s.words.isEmpty then [] else [_]
  rw [List.isEmpty_eq_false_iff.mpr some]
  exact List.mem_singleton.mpr rfl

/-- What is known of the statements of an accepted text that is read alike. -/
structure Program (labels : Labels) (bytes : List Byte) (statements : List Statement) : Prop where
  fits : bytes.length ≤ 3584
  addresses : Asm.Addresses (encodeLabels labels)
  normal : ∀ s ∈ statements, ∀ a ∈ s.args, normalize (encode a) = encode a
  stands : ∀ s ∈ statements, isInstruction s = true → ∃ m i, Stands labels bytes s m i

theorem program_of_accepted (accepted : Asm.assemble (encode text) = .ok bytes)
    (same : SameReading U text) (parsed : parseSource U text = .ok (statements, labels)) :
    Program labels bytes statements := by
  obtain ⟨statements', labels', layout, parsed', -, named, parses, clean, assembles⟩ :=
    parseSource_same U accepted same
  cases parsed.symm.trans parsed'
  have fits : bytes.length ≤ 3584 := by
    obtain ⟨_, -, -, small, -⟩ := Asm.passes_agree accepted
    exact small
  obtain ⟨out, emitted, rfl⟩ := assembles.second
  have addresses : Asm.Addresses (encodeLabels labels) := by
    rw [named]
    exact Asm.layout_addresses (Nat.le_refl _) (fun _ mem => absurd mem List.not_mem_nil)
      assembles.first
  refine ⟨fits, addresses, ?_, ?_⟩
  · intro s here a operand
    have inside : a ∈ s.words := List.mem_append_right _ operand
    have isItem := clean _ (parses.words here (List.ne_nil_of_mem inside))
    unfold encodeLine at isItem
    dsimp only at isItem
    have encoded : encode a ∈ s.words.map encode := List.mem_map_of_mem inside
    generalize s.words.map encode = ws at isItem encoded
    cases isItem with
    | statement normal _ _ => exact (normal _ encoded).upper
  · intro s here isInsn
    have org : ∀ s ∈ statements, SameOrg U s.words := by
      intro s here a shape
      have some : s.words ≠ [] := by
        rw [shape]
        exact List.cons_ne_nil _ _
      exact same.org a (shape ▸ parses.words here some)
    obtain ⟨stop, follows⟩ := parseSource_follows parsed
    have emitted' : ((statements.flatMap Statement.items).map encodeLine).foldlM
        (Asm.emitLine layout.symbols) .start = .ok out := by
      rw [parses.items]
      exact emitted
    obtain ⟨op, w, isOp, encoded, word⟩ :=
      emit_statements parses.bare org follows rfl rfl emitted' s here isInsn
    obtain ⟨m, text, i, means, decodes⟩ := Asm.instruction_stands encoded
    rw [← named] at means
    -- What an instruction is assembled from is ASCII, so its operands are their own encoding.
    have ascii : ∀ a ∈ s.args.map encode, Ascii a :=
      means.ascii fun t n known => Asm.value_ascii addresses known
    have same : s.args.map encode = s.args := by
      refine (List.map_congr_left fun a inside => ?_).trans (List.map_id _)
      exact encode_ascii (ascii_of_encode (ascii _ (List.mem_map_of_mem inside)))
    have small : ∀ c ∈ m.text, c.toNat < 128 := by
      cases m <;> decide
    rw [same] at means
    rw [(encode_eq_ascii small).mp text] at isOp
    exact ⟨m, i, isOp, means, w, word, decodes⟩

/-! ## Operands -/

theorem lookup_labels {a : Token} (ascii : Ascii a) {symbol : Symbol}
    (found : Asm.lookup (encodeLabels labels) a = some symbol) :
    labels.lookup a = some symbol.value := by
  induction labels with
  | nil => cases found
  | cons r rest ih =>
    obtain ⟨name, n⟩ := r
    unfold Asm.lookup encodeLabels at ih found
    rw [List.map_cons, List.find?_cons] at found
    by_cases same : name = a
    · subst same
      rw [encode_ascii ascii, beq_self_eq_true] at found
      cases found
      rw [List.lookup_cons, beq_self_eq_true]
    · have apart : (encode name == a) = false :=
        beq_false_of_ne fun equal => same ((encode_eq_ascii ascii).mp equal)
      rw [apart] at found
      rw [List.lookup_cons, beq_false_of_ne (Ne.symm same)]
      exact ih found

theorem labels_lookup {a : Token} {n : Nat} (found : labels.lookup a = some n) :
    ∃ symbol ∈ encodeLabels labels, symbol.name = encode a := by
  induction labels with
  | nil => cases found
  | cons r rest ih =>
    obtain ⟨name, value⟩ := r
    rw [List.lookup_cons] at found
    split at found
    · rename_i same
      obtain rfl : a = name := beq_iff_eq.mp same
      exact ⟨⟨encode a, value⟩, List.mem_cons_self, rfl⟩
    · obtain ⟨symbol, here, name⟩ := ih found
      exact ⟨symbol, List.mem_cons_of_mem _ here, name⟩

/-- The operands of the instructions that are numbers are the same numbers to both. -/
def SameNumbers (U : Unicode) (statements : List Statement) : Prop :=
  ∀ s ∈ statements, isInstruction s = true → ∀ a ∈ s.args, ∀ n : Nat,
    Asm.strtoul (encode a) = some n → parseNumber U a = some (n : Int)

theorem Program.resolve (program : Program labels bytes statements)
    (numbers : SameNumbers U statements) {s : Statement} (here : s ∈ statements)
    (isInsn : isInstruction s = true) {a : Token} (operand : a ∈ s.args) {n : Nat}
    (known : Asm.value (encodeLabels labels) true a = .ok n) :
    resolve U labels a = some (n : Int) := by
  have ascii := Asm.value_ascii program.addresses known
  have upper : upper U a = a := by
    have normal := program.normal s here a operand
    rw [encode_ascii ascii] at normal
    rw [upper_ascii U ascii, normal]
  unfold Opt.resolve
  rw [upper]
  unfold Asm.value at known
  cases number : Asm.strtoul a with
  | some m =>
    rw [number] at known
    dsimp only at known
    -- The assembler tries the number first, the optimizer the label; no label reads as a number.
    have noLabel : labels.lookup a = none := by
      rw [Option.eq_none_iff_forall_ne_some]
      intro value found
      obtain ⟨symbol, inside, name⟩ := labels_lookup found
      rw [encode_ascii ascii] at name
      have valid := (program.addresses symbol inside).1
      rw [name] at valid
      rw [Asm.strtoul_name valid] at number
      cases number
    split at known
    · cases known
    · cases known
      rw [noLabel]
      exact numbers s here isInsn a operand _ (by rw [encode_ascii ascii, number])
  | none =>
    rw [number] at known
    dsimp only at known
    cases found : Asm.lookup (encodeLabels labels) a with
    | none =>
      rw [found] at known
      cases known
    | some symbol =>
      rw [found] at known
      cases known
      rw [lookup_labels ascii found]

end

end ChipEight.Opt
