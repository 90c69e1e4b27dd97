import ChipEight.Disas.Reencode
import ChipEight.Opt.Reading

/-! The lines of the listing as the assembler reads them. -/

set_option autoImplicit false

namespace ChipEight.Disas

open Asm (Text Token Mnemonic IsWord normalize readLine wordI wordDT wordST wordF wordB wordK
  wordMemory wordV0)
open Opt (isGraph Printable Neat Body graph_letter graph_printable)

/-! ## Words -/

def plainWords : List Token := [wordI, wordDT, wordST, wordF, wordB, wordK, wordMemory, wordV0]

/-- An operand that stands for itself is one of the assembler's words. -/
def Operand.Known : Operand → Prop
  | .plain t => t ∈ plainWords
  | _ => True

/-- A word both front ends take as it is. -/
structure Graphic (w : Token) : Prop where
  nonempty : w ≠ []
  graph : ∀ c ∈ w, isGraph c = true

theorem Graphic.word {w : Token} (graphic : Graphic w) : IsWord w :=
  ⟨graphic.nonempty, fun c here => graph_letter (graphic.graph c here)⟩

theorem hexDigit_graph {n : Nat} (small : n < 16) : isGraph (hexDigit n) = true := by
  interval_cases n <;> decide

theorem hex_graph {w n : Nat} : ∀ c ∈ hex w n, isGraph c = true := by
  intro c here
  obtain ⟨d, small, rfl⟩ := hex_digits here
  exact hexDigit_graph small

theorem graphic_prefixed {front : Token} (some : front ≠ [])
    (graph : ∀ c ∈ front, isGraph c = true) (w n : Nat) : Graphic (front ++ hex w n) := by
  constructor
  · exact fun empty => some (List.append_eq_nil_iff.mp empty).1
  · intro c here
    obtain first | digit := List.mem_append.mp here
    · exact graph c first
    · exact hex_graph c digit

theorem operand_graphic {o : Operand} (known : o.Known) : Graphic o.text ∧ o.text.length ≤ 8 := by
  have number (w n : Nat) (short : w ≤ 4) : Graphic (number w n) ∧ (number w n).length ≤ 8 := by
    refine ⟨@graphic_prefixed ['0', 'x'] (by decide) (by decide) w n, ?_⟩
    show (hex w n).length + 2 ≤ 8
    rw [hex_length]
    omega
  cases o with
  | reg x =>
    refine ⟨@graphic_prefixed ['V'] (by decide) (by decide) 1 _, ?_⟩
    show (hex 1 x.toNat).length + 1 ≤ 8
    rw [hex_length]
    decide
  | byte kk => exact number 2 _ (by decide)
  | nibble n => exact number 1 _ (by decide)
  | address nnn => exact number 3 _ (by decide)
  | word op => exact number 4 _ (by decide)
  | block nnn =>
    refine ⟨graphic_prefixed (by decide) (by decide) 3 _, ?_⟩
    show (['b', 'l', 'o', 'c', 'k'] ++ hex 3 nnn.toNat).length ≤ 8
    rw [List.length_append, hex_length]
    decide
  | plain t =>
    have all : ∀ t ∈ plainWords, (t ≠ [] ∧ ∀ c ∈ t, isGraph c = true) ∧ t.length ≤ 8 := by decide
    obtain ⟨⟨some, graph⟩, short⟩ := all t known
    exact ⟨⟨some, graph⟩, short⟩

/-! ## Lines -/

def opWords : List Token := [dotWord, dotByte] ++ Asm.mnemonics.map Mnemonic.text

/-- The comments `disassemble` prints. -/
def ownComments : List Text := [[], unrecognized, jumpWarning]

/-- The comments of the listing. -/
def allComments : List Text :=
  [deadComment] ++ ownComments ++ ownComments.map (· ++ unreachable)

theorem opWords_facts : ∀ op ∈ opWords, (op ≠ [] ∧ ∀ c ∈ op, isGraph c = true) ∧ op.length ≤ 5 ∧
    op.getLast? ≠ some ':' ∧ normalize op ≠ Opt.opOrg := by
  decide

theorem comment_facts : ∀ comment ∈ allComments,
    (comment = [] ∨ comment.take 2 = [' ', ';']) ∧ comment.length ≤ 100 ∧
      ∀ c ∈ comment, 32 ≤ c.toNat ∧ c.toNat < 127 := by
  decide

/-- What a line of the listing is made of. -/
structure Made (comments : List Text) (l : Line) : Prop where
  op : l.op ∈ opWords
  few : l.operands.length ≤ 3
  known : ∀ o ∈ l.operands, o.Known
  comment : l.comment ∈ comments

theorem operandsText_spaced (operands : List Operand) :
    operandsText operands = Asm.spaced (operands.map Operand.text) := by
  induction operands with
  | nil => rfl
  | cons o rest ih =>
    cases rest with
    | nil => rfl
    | cons o' rest =>
      show ' ' :: o.text ++ ',' :: operandsText (o' :: rest) = ' ' :: o.text ++ ',' :: _
      rw [ih]
      rfl

theorem line_text (l : Line) :
    l.text = Asm.printStatement (l.op :: l.operands.map Operand.text) ++ l.comment := by
  show Asm.indentation ++ l.op ++ operandsText l.operands ++ l.comment = _
  rw [operandsText_spaced]
  rfl

theorem spaced_length {ws : List Token} (short : ∀ w ∈ ws, w.length ≤ 8) :
    (Asm.spaced ws).length ≤ 10 * ws.length := by
  induction ws with
  | nil => exact Nat.le_refl 0
  | cons w ws ih =>
    have here := short w List.mem_cons_self
    have later := ih fun v inside => short v (List.mem_cons_of_mem w inside)
    cases ws with
    | nil =>
      show w.length + 1 ≤ 10
      omega
    | cons w' ws =>
      show (' ' :: w ++ ',' :: Asm.spaced (w' :: ws)).length ≤ _
      rw [List.length_append, List.length_cons, List.length_cons, List.length_cons]
      omega

theorem spaced_body {ws : List Token} (graphic : ∀ w ∈ ws, Graphic w) : Body (Asm.spaced ws) := by
  have front {w : Token} {text : Text} (word : Graphic w) (body : Body text) :
      Body (' ' :: w ++ text) := by
    intro c here
    obtain first | later := List.mem_append.mp here
    · obtain blank | inside := List.mem_cons.mp first
      · exact .inr (.inl blank)
      · exact .inl (word.graph c inside)
    · exact body c later
  induction ws with
  | nil => exact fun c here => absurd here List.not_mem_nil
  | cons w ws ih =>
    have word := graphic w List.mem_cons_self
    have later := ih fun v inside => graphic v (List.mem_cons_of_mem w inside)
    cases ws with
    | nil =>
      have alone := @front w [] word fun c here => absurd here List.not_mem_nil
      rwa [List.append_nil] at alone
    | cons w' ws =>
      refine front word fun c here => ?_
      obtain comma | inside := List.mem_cons.mp here
      · exact .inr (.inr comma)
      · exact later c inside

namespace Made

variable {l : Line}

theorem graphic {comments : List Text} (made : Made comments l) :
    ∀ w ∈ l.op :: l.operands.map Operand.text, Graphic w ∧ w.length ≤ 8 := by
  intro w here
  obtain rfl | inside := List.mem_cons.mp here
  · obtain ⟨⟨some, graph⟩, short, -⟩ := opWords_facts l.op made.op
    exact ⟨⟨some, graph⟩, by omega⟩
  · obtain ⟨o, there, rfl⟩ := List.mem_map.mp inside
    exact operand_graphic (made.known o there)

theorem body {comments : List Text} (made : Made comments l) :
    Body (Asm.printStatement (l.op :: l.operands.map Operand.text)) := by
  intro c here
  obtain first | operands := List.mem_append.mp here
  · obtain blank | inOp := List.mem_append.mp first
    · exact .inr (.inl (List.eq_of_mem_replicate blank))
    · exact .inl ((made.graphic l.op List.mem_cons_self).1.graph c inOp)
  · exact spaced_body (fun w inside => (made.graphic w (List.mem_cons_of_mem _ inside)).1) c operands

theorem neat (made : Made allComments l) : Neat l.text := by
  obtain ⟨tail, -, printable⟩ := comment_facts l.comment made.comment
  rw [line_text]
  constructor
  · refine ⟨_, l.comment, rfl, made.body, ?_⟩
    obtain empty | signs := tail
    · exact .inl empty
    · exact .inr ⟨l.comment.drop 2, by
        conv_lhs => rw [← List.take_append_drop 2 l.comment, signs]
        rfl⟩
  · intro c here
    obtain inside | behind := List.mem_append.mp here
    · obtain graph | rfl | rfl := made.body c inside
      · exact graph_printable graph
      · exact ⟨by decide, by decide⟩
      · exact ⟨by decide, by decide⟩
    · exact ⟨(printable c behind).1, (printable c behind).2⟩

theorem statement_length (made : Made allComments l) {ws : List Token}
    (shape : ws = l.op :: l.operands.map Operand.text ∨ ws = l.tokens) :
    (Asm.printStatement ws).length ≤ 100 := by
  have graphic := made.graphic
  have same : ∀ w ∈ l.op :: l.operands.map Operand.text, w.length ≤ 8 := fun w here =>
    (graphic w here).2
  have sizes : ∃ op args, ws = op :: args ∧ op.length ≤ 8 ∧ args.length ≤ 3 ∧
      ∀ w ∈ args, w.length ≤ 8 := by
    have operands : (l.operands.map Operand.text).length ≤ 3 := by
      rw [List.length_map]
      exact made.few
    obtain rfl | rfl := shape
    · exact ⟨_, _, rfl, same _ List.mem_cons_self, operands,
        fun w inside => same w (List.mem_cons_of_mem _ inside)⟩
    · refine ⟨normalize l.op, l.operands.map Operand.token, rfl, ?_, ?_, ?_⟩
      · show (l.op.map Asm.toupper).length ≤ 8
        rw [List.length_map]
        exact same l.op List.mem_cons_self
      · rw [List.length_map]
        exact made.few
      · intro w inside
        obtain ⟨o, there, rfl⟩ := List.mem_map.mp inside
        show (o.text.map Asm.toupper).length ≤ 8
        rw [List.length_map]
        exact same o.text (List.mem_cons_of_mem _ (List.mem_map_of_mem there))
  obtain ⟨op, args, rfl, first, few, short⟩ := sizes
  have spaced := spaced_length short
  show (Asm.indentation ++ op ++ Asm.spaced args).length ≤ 100
  rw [List.length_append, List.length_append]
  have blanks : Asm.indentation.length = 8 := rfl
  omega

theorem length (made : Made allComments l) : l.text.length ≤ 1023 := by
  have front := made.statement_length (.inl rfl)
  have tail := (comment_facts l.comment made.comment).2.1
  rw [line_text, List.length_append]
  omega

theorem read (made : Made allComments l) : readLine l.text = .ok ⟨none, l.tokens⟩ := by
  obtain ⟨tail, -, printable⟩ := comment_facts l.comment made.comment
  have closes : Asm.Closes l.comment := by
    obtain empty | signs := tail
    · exact .inl empty
    · refine .inr ⟨' ', ';' :: l.comment.drop 2, ?_, rfl, rfl⟩
      conv_lhs => rw [← List.take_append_drop 2 l.comment, signs]
      rfl
  have noNul : '\x00' ∉ l.comment := fun here => absurd (printable _ here).1 (by decide)
  have few : (l.operands.map Operand.text).length < Asm.maxTokens := by
    rw [List.length_map]
    exact Nat.lt_of_le_of_lt made.few (by decide)
  have word := (made.graphic l.op List.mem_cons_self).1.word
  have clean : ∀ w ∈ l.operands.map Operand.text, IsWord w := fun w inside =>
    (made.graphic w (List.mem_cons_of_mem _ inside)).1.word
  rw [line_text, Asm.readLine_statement word clean few (opWords_facts l.op made.op).2.2.1 closes
    noNul, List.map_cons, List.map_map]
  rfl

theorem noOrg {comments : List Text} (made : Made comments l) : l.tokens.head? ≠ some Opt.opOrg :=
  fun same => (opWords_facts l.op made.op).2.2.2 (Option.some.inj same)

end Made

@[simp] theorem known_reg (x : Reg) : (Operand.reg x).Known := trivial
@[simp] theorem known_byte (kk : Byte) : (Operand.byte kk).Known := trivial
@[simp] theorem known_nibble (n : Reg) : (Operand.nibble n).Known := trivial
@[simp] theorem known_address (nnn : Addr) : (Operand.address nnn).Known := trivial
@[simp] theorem known_word (op : Word) : (Operand.word op).Known := trivial
@[simp] theorem known_plain (t : Token) : (Operand.plain t).Known ↔ t ∈ plainWords := Iff.rfl

@[simp] theorem targetOperand_known (m : Map) (nnn : Addr) : (targetOperand m nnn).Known := by
  unfold targetOperand
  split <;> trivial

theorem made_plain {o : Mnemonic} {operands : List Operand} (few : operands.length ≤ 3)
    (known : ∀ x ∈ operands, x.Known) : Made ownComments (plainLine o operands) := by
  refine ⟨?_, few, known, List.mem_cons_self⟩
  show o.text ∈ opWords
  cases o <;> decide

theorem made_data {d : Token} (directive : d ∈ [dotWord, dotByte]) {o : Operand} (known : o.Known)
    {comments : List Text} {comment : Text} (own : comment ∈ comments) :
    Made comments ⟨d, [o], comment⟩ := by
  refine ⟨List.mem_append_left _ directive, ?_, ?_, own⟩
  · show 1 ≤ 3
    decide
  · intro x only
    rw [List.mem_singleton.mp only]
    exact known

theorem disassemble_made (m : Map) (op : Word) : Made ownComments (disassemble m op) := by
  have raw : Made ownComments (rawWord op) :=
    made_data (by decide) (known_word op) (by decide)
  have jump : Made ownComments
      ⟨Mnemonic.jp.text, [.plain wordV0, .address (immediate12 op)], jumpWarning⟩ := by
    refine ⟨?_, by simp, by simp [plainWords], ?_⟩
    · show Mnemonic.jp.text ∈ opWords
      decide
    · show jumpWarning ∈ ownComments
      decide
  unfold disassemble disassembleAlu disassembleF
  dsimp only
  repeat' split
  all_goals first
    | exact raw
    | exact jump
    | exact made_plain (by simp) (by simp [plainWords])

theorem wordLine_made (decodeUnreachable : Bool) (m : Map) (pc : Nat) (op : Word) :
    Made allComments (wordLine decodeUnreachable m pc op) := by
  have own := disassemble_made m op
  unfold wordLine output
  split
  · exact made_data (by decide) (known_word op) (by decide)
  split
  · exact ⟨own.op, own.few, own.known,
      List.mem_append_left _ (List.mem_append_right _ own.comment)⟩
  · exact ⟨own.op, own.few, own.known,
      List.mem_append_right _ (List.mem_map_of_mem own.comment)⟩

/-! ## Labels -/

/-- A label as the assembler records it. -/
def labelName (a : Nat) : Token := normalize (blockName a)

theorem labelName_eq (a : Nat) : labelName a = ['B', 'L', 'O', 'C', 'K'] ++ hex 3 a := by
  unfold labelName blockName
  rw [Asm.normalize, List.map_append, ← Asm.normalize, ← Asm.normalize, normalize_hex]
  rfl

theorem blockName_graphic (a : Nat) : Graphic (blockName a ++ [':']) := by
  have name : Graphic (blockName a) := graphic_prefixed (by decide) (by decide) 3 a
  constructor
  · exact List.append_ne_nil_of_right_ne_nil _ (by decide)
  · intro c here
    obtain inside | colon := List.mem_append.mp here
    · exact name.graph c inside
    · rw [List.mem_singleton.mp colon]
      decide

theorem blockName_length (a : Nat) : (blockName a).length = 8 := by
  rw [blockName, List.length_append, hex_length]
  rfl

theorem labelName_valid (a : Nat) : Asm.isName (labelName a) = true := by
  rw [labelName_eq]
  show (true && (['L', 'O', 'C', 'K'] ++ hex 3 a).all fun c => Asm.isalnum c || c == '_') = true
  rw [Bool.true_and, List.all_append, Bool.and_eq_true]
  exact ⟨by decide, hex_name 3 a⟩

theorem labelName_inj {a b : Nat} (small : a < 4096) (small' : b < 4096)
    (same : labelName a = labelName b) : a = b := by
  rw [labelName_eq, labelName_eq] at same
  exact @hex_inj 3 a b small small' (List.append_cancel_left same)

end ChipEight.Disas
