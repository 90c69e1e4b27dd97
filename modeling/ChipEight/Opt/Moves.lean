import ChipEight.Asm.Operands
import ChipEight.Opt.Simulation
import ChipEight.Opt.Symbolic

/-! The patch `optimize_peepholes` makes.

The instructions of a program are those its statements stand for, and what becomes of them is
read off the rules that apply; the ROM of the optimized statements is the original one,
patched so.
-/

set_option autoImplicit false

namespace ChipEight.Opt

open Asm (Text Token Mnemonic Means Layout Symbol wordBytes wordI wordDT wordK wordMemory)
open Layout (total offset)

/-! ## Words of statements -/

section
variable {U : Unicode} {statements : List Statement} {stop : Nat} {layout : Layout}
  {bytes : List Byte}

theorem assembled_length (assembled : Assembled statements layout bytes)
    (follows : Follows U entry statements stop) (printed : ∀ s ∈ statements, Printed s) :
    entry + bytes.length = stop ∧ bytes.length ≤ 3584 := by
  obtain ⟨laid, o, emitted, rfl⟩ := assembled_folds assembled
  have inStep := Asm.lines_inStep .start laid (Asm.Extends.refl _) emitted
  have pc : o.pc = stop := emit_pc follows (fun s here => (printed s here).bare)
    (fun s here => (printed s here).other) rfl emitted
  have bound := Asm.layout_bound (by decide) laid
  have written := inStep.written
  have low : entry = 512 := rfl
  have size : memorySize = 4096 := rfl
  rw [← inStep.pc, pc] at written bound
  omega

/-- An instruction in a ROM. -/
structure Holds (bytes : List Byte) (pc : Nat) (i : Insn) : Prop where
  first : InRom bytes pc
  second : InRom bytes (pc + 1)
  word : decode (opcodeAt (loadRom bytes) (BitVec.ofNat 16 pc)) = some i

theorem holds_of_word {pc : Nat} {w : Word} {i : Insn} (fits : bytes.length ≤ 3584)
    (above : entry ≤ pc) (here : (bytes.drop (pc - entry)).take 2 = wordBytes w)
    (decoded : decode w = some i) : Holds bytes pc i := by
  have base : entrypoint.toNat = 512 := rfl
  have low : entry = 512 := rfl
  have long := congrArg List.length here
  rw [List.length_take, List.length_drop, show (wordBytes w).length = 2 from rfl] at long
  have byte (k : Nat) (small : k < 2) (a : Addr) (address : a.toNat = pc + k) :
      loadRom bytes a = (wordBytes w).getD k 0#8 := by
    have offset : a.toNat - entrypoint.toNat = pc - entry + k := by omega
    unfold loadRom
    rw [if_neg (by omega), offset, ← here, List.getD_eq_getElem?_getD, List.getD_eq_getElem?_getD,
      List.getElem?_take_of_lt small, List.getElem?_drop]
  have first := byte 0 (by decide) (mask (BitVec.ofNat 16 pc)) (by
    rw [mask, BitVec.toNat_setWidth, BitVec.toNat_ofNat]
    omega)
  have second := byte 1 (by decide) (mask (BitVec.ofNat 16 pc + 1)) (by
    rw [mask, BitVec.toNat_setWidth, BitVec.toNat_add, BitVec.toNat_ofNat]
    show (pc % 2 ^ 16 + 1) % 2 ^ 16 % 2 ^ 12 = _
    omega)
  refine ⟨?_, ?_, ?_⟩
  · unfold InRom
    omega
  · unfold InRom
    omega
  · unfold opcodeAt
    rw [first, second]
    exact (congrArg decode (Asm.word_of_bytes w)).trans decoded

/-- An instruction statement, and the instruction at its address. -/
structure Spelled (symbols : List Symbol) (bytes : List Byte) (s : Statement) (m : Mnemonic)
    (i : Insn) : Prop where
  op : s.op = some m.text
  size : s.size = 2
  ascii : ∀ a ∈ s.args, encode a = a
  means : Means (Asm.value symbols true) m s.args i
  holds : Holds bytes s.pc i

theorem assembled_spelled (assembled : Assembled statements layout bytes)
    (follows : Follows U entry statements stop) (printed : ∀ s ∈ statements, Printed s)
    {s : Statement} (here : s ∈ statements) (isInsn : isInstruction s = true) :
    ∃ m i, Spelled layout.symbols bytes s m i := by
  obtain ⟨measured, -⟩ := assembled_at assembled follows (fun s here => (printed s here).bare)
    (fun s here => (printed s here).other) here
  obtain ⟨op, w, isOp, encoded, size, out⟩ := lineSize_instruction isInsn measured
  obtain ⟨m, text, i, means, decoded⟩ := Asm.instruction_stands encoded
  have addresses := Asm.layout_addresses (Nat.le_refl _)
    (fun _ mem => absurd mem List.not_mem_nil) (assembled_folds assembled).1
  have ascii : ∀ a ∈ s.args.map encode, Asm.Ascii a :=
    means.ascii fun t n known => Asm.value_ascii addresses known
  have plain : ∀ a ∈ s.args, encode a = a := fun a inside =>
    encode_ascii (ascii_of_encode (ascii _ (List.mem_map_of_mem inside)))
  have same : s.args.map encode = s.args := (List.map_congr_left plain).trans (List.map_id _)
  have small : ∀ c ∈ m.text, c.toNat < 128 := by
    cases m <;> decide
  rw [same] at means
  rw [(encode_eq_ascii small).mp text] at isOp
  obtain ⟨-, fits⟩ := assembled_length assembled follows printed
  have above : entry ≤ s.pc := by
    obtain ⟨k, at_⟩ := List.mem_iff_getElem?.mp here
    rw [follows.pc at_]
    exact Nat.le_add_right _ _
  unfold bytesOf at out
  rw [size] at out
  exact ⟨m, i, isOp, size, plain, means, holds_of_word fits above out decoded⟩

end

/-! ## Operands of rules -/

section
variable {U : Unicode} {read : Asm.Reader}

/-- The assembler's numbers are Python's. -/
def Numbers (U : Unicode) (args : List Token) : Prop :=
  ∀ a ∈ args, ∀ n : Nat, Asm.strtoul a = some n → parseNumber U a = some (n : Int)

theorem isRegister_start {a : Token} (register : isRegister a = true) : ∃ c, a = ['V', c] := by
  unfold isRegister at register
  split at register
  · exact ⟨_, rfl⟩
  · cases register

theorem means_ld {a b : Token} {i : Insn} (register : isRegister a = true)
    (means : Means read .ld [a, b] i) : ∃ x, Asm.reg a = .ok x ∧
      ((∃ f, (b, f) ∈ Asm.loadForms ∧ i = f x) ∨ (∃ y, Asm.reg b = .ok y ∧ i = .alu .move x y) ∨
        ∃ kk : Byte, read b = .ok kk.toNat ∧ Asm.startsWithV b = false ∧ i = .ld x kk) := by
  obtain ⟨c, rfl⟩ := isRegister_start register
  cases means with
  | store form _ =>
    simp [Asm.storeForms, wordDT, Asm.wordST, Asm.wordF, Asm.wordB, wordMemory] at form
  | load form first => exact ⟨_, first, .inl ⟨_, form, rfl⟩⟩
  | move first second => exact ⟨_, first, .inr (.inl ⟨_, second, rfl⟩)⟩
  | ld first second other => exact ⟨_, first, .inr (.inr ⟨_, second, other, rfl⟩)⟩
  | alu form _ _ => simp [Asm.aluForms] at form

theorem means_ld_number {a b : Token} {i : Insn} {n : Int} (plain : Asm.Plain read)
    (numbers : Numbers U [a, b]) (register : isRegister a = true)
    (number : parseNumber U b = some n) (means : Means read .ld [a, b] i) :
    ∃ x, ∃ kk : Byte, Asm.reg a = .ok x ∧ i = .ld x kk ∧ n = (kk.toNat : Int) := by
  obtain ⟨x, first, ⟨f, form, -⟩ | ⟨y, second, -⟩ | ⟨kk, known, -, same⟩⟩ := means_ld register means
  · rw [parseNumber_form (List.mem_map_of_mem form)] at number
    cases number
  · rw [parseNumber_reg second] at number
    cases number
  · have value := numbers b (by simp) _ (plain b _ kk.isLt known)
    exact ⟨x, kk, first, same, Option.some.inj (number.symm.trans value)⟩

theorem means_add_number {a b : Token} {j : Insn} {n : Int} (plain : Asm.Plain read)
    (numbers : Numbers U [a, b]) (register : isRegister a = true)
    (number : parseNumber U b = some n) (means : Means read .add [a, b] j) :
    ∃ x, ∃ kk : Byte, Asm.reg a = .ok x ∧ j = .add x kk ∧ n = (kk.toNat : Int) := by
  obtain ⟨c, rfl⟩ := isRegister_start register
  cases means with
  | addReg first second =>
    rw [parseNumber_reg second] at number
    cases number
  | add first second other =>
    have value := numbers b (by simp) _ (plain b _ (BitVec.isLt _) second)
    exact ⟨_, _, first, rfl, Option.some.inj (number.symm.trans value)⟩
  | alu form _ _ => simp [Asm.aluForms] at form

theorem twoOperands_some {s : Statement} {a b : Token} (two : twoOperands s = some (a, b)) :
    s.args = [a, b] := by
  unfold twoOperands at two
  split at two
  · rename_i args
    cases two
    exact args
  · cases two

theorem means_ld_self {a : Token} {i : Insn} (means : Means read .ld [a, a] i) :
    (∃ x, i = .alu .move x x) ∨ ∃ y, i = .ldI y := by
  cases means with
  | ldI _ => exact .inr ⟨_, rfl⟩
  | store form second =>
    simp only [Asm.storeForms, List.mem_cons, Prod.mk.injEq, List.not_mem_nil, or_false] at form
    rcases form with ⟨rfl, -⟩ | ⟨rfl, -⟩ | ⟨rfl, -⟩ | ⟨rfl, -⟩ | ⟨rfl, -⟩ <;> cases second
  | load form first =>
    simp only [Asm.loadForms, List.mem_cons, Prod.mk.injEq, List.not_mem_nil, or_false] at form
    rcases form with ⟨rfl, -⟩ | ⟨rfl, -⟩ | ⟨rfl, -⟩ <;> cases first
  | @move _ _ x y first second =>
    obtain rfl : x = y := Except.ok.inj (first.symm.trans second)
    exact .inl ⟨x, rfl⟩
  | ld first _ other =>
    rw [Asm.startsWithV_of_reg first] at other
    cases other
  | alu form _ _ => simp [Asm.aluForms] at form

theorem means_noop {s : Statement} {m : Mnemonic} {i : Insn} (plain : Asm.Plain read)
    (numbers : Numbers U s.args) (noop : isNoop U s = true) (op : s.op = some m.text)
    (means : Means read m s.args i) :
    (∃ x, i = .alu .move x x) ∨ (∃ x, i = .add x 0#8) ∨ ∃ y, i = .ldI y := by
  unfold isNoop at noop
  cases two : twoOperands s with
  | none =>
    rw [two] at noop
    cases noop
  | some pair =>
    obtain ⟨a, b⟩ := pair
    have args := twoOperands_some two
    rw [two] at noop
    rw [args] at means numbers
    simp only [Bool.or_eq_true, Bool.and_eq_true, beq_iff_eq] at noop
    obtain ⟨isLd, rfl⟩ | ⟨⟨isAdd, register⟩, zero⟩ := noop
    · cases mnemonic_of_op op isLd
      exact (means_ld_self means).imp_right .inr
    · cases mnemonic_of_op op isAdd
      obtain ⟨x, kk, -, rfl, value⟩ := means_add_number plain numbers register zero means
      obtain rfl : kk = 0#8 := by
        apply BitVec.eq_of_toNat_eq
        rw [BitVec.toNat_ofNat]
        omega
      exact .inr (.inl ⟨x, rfl⟩)

theorem folds_arguments {free : Nat → Bool} {s t : Statement} {total : Nat}
    (found : folds U free s t = some total) :
    ∃ a b d m n, s.args = [a, b] ∧ t.args = [a, d] ∧ isRegister a = true ∧
      parseNumber U b = some m ∧ parseNumber U d = some n ∧ total = ((m + n) % 256).toNat := by
  unfold folds at found
  split at found
  · split at found
    · rename_i a b c d first second
      split at found
      · rename_i conditions
        simp only [Bool.and_eq_true, beq_iff_eq] at conditions
        obtain ⟨⟨⟨register, rfl⟩, -⟩, -⟩ := conditions
        split at found
        · rename_i m n known known'
          exact ⟨a, b, d, m, n, twoOperands_some first, twoOperands_some second, register, known,
            known', (Option.some.inj found).symm⟩
        · cases found
      · cases found
    · cases found
  · cases found

theorem strtoul_byteText : ∀ n < 256, Asm.strtoul (byteText n) = some n := by
  decide +kernel

theorem means_sum {read' : Asm.Reader} {a b d : Token} {i j k : Insn} {m n : Int}
    (plain : Asm.Plain read) (plain' : Asm.Plain read') (numbers : Numbers U [a, b])
    (numbers' : Numbers U [a, d]) (register : isRegister a = true)
    (first : parseNumber U b = some m) (second : parseNumber U d = some n)
    (means : Means read .ld [a, b] i) (means' : Means read .add [a, d] j)
    (sum : Means read' .ld [a, byteText ((m + n) % 256).toNat] k) :
    ∃ x kk ll, i = .ld x kk ∧ j = .add x ll ∧ k = .ld x (kk + ll) := by
  obtain ⟨x, kk, known, rfl, rfl⟩ := means_ld_number plain numbers register first means
  obtain ⟨y, ll, known', rfl, rfl⟩ := means_add_number plain numbers' register second means'
  obtain rfl : x = y := Except.ok.inj (known.symm.trans known')
  refine ⟨x, kk, ll, rfl, rfl, ?_⟩
  have small : (((kk.toNat : Int) + ll.toNat) % 256).toNat < 256 := by omega
  generalize isTotal : (((kk.toNat : Int) + ll.toNat) % 256).toNat = total at sum small
  obtain ⟨z, first, ⟨f, form, -⟩ | ⟨w, second, -⟩ | ⟨v, value, -, rfl⟩⟩ := means_ld register sum
  · simp [Asm.loadForms, byteText, wordDT, wordK, wordMemory] at form
  · cases second
  · obtain rfl : x = z := Except.ok.inj (known.symm.trans first)
    have read := plain' _ _ v.isLt value
    rw [strtoul_byteText total small] at read
    congr 1
    apply BitVec.eq_of_toNat_eq
    rw [← Option.some.inj read, ← isTotal, BitVec.toNat_add]
    omega

end

/-! ## The patch -/

def Rule.fate : Rule → Fate
  | .fold _ => .folded
  | .tailCall => .tailCall
  | .noop => .noop
  | .overwritten => .overwritten
  | .keep => .kept

section
variable (U : Unicode) (labels : Labels) (free : Nat → Bool)

/-- An `LD` takes in the statement behind it. -/
def takesIn (prev : Option Statement) (s : Statement) : Bool :=
  prev.any fun r => (folds U free r s).isSome

/-- What becomes of the instruction statement at an address. -/
def fateFrom (pc : Nat) (prev : Option Statement) : List Statement → Fate
  | [] => .kept
  | s :: rest =>
    if isInstruction s && s.pc == pc then
      if takesIn U free prev s then .merged else (ruleAt U labels free s rest.head?).fate
    else fateFrom pc (some s) rest

/-- The last operand is not a number to the assembler. -/
def namesLabel (s : Statement) : Bool :=
  s.args.getLast?.any fun a => (Asm.strtoul (encode a)).isNone

/-- The patch of a program with a ROM. -/
def patchOf (program : List Statement) (bytes : List Byte) : Patch where
  insn pc := (instructionAt program pc).bind fun _ =>
    decode (opcodeAt (loadRom bytes) (BitVec.ofNat 16 pc))
  fate pc := fateFrom U labels free pc none program
  deleted v := deletedBefore U labels free v none program
  displacement pc :=
    match instructionAt program pc, decode (opcodeAt (loadRom bytes) (BitVec.ofNat 16 pc)) with
    | some s, some (.ldI y) =>
      if namesLabel s then deletedBefore U labels free y.toNat none program else 0
    | _, _ => 0

end

/-- The statement before the one with an index. -/
def previous (prev : Option Statement) (statements : List Statement) : Nat → Option Statement
  | 0 => prev
  | k + 1 => statements[k]?

theorem previous_cons (prev : Option Statement) (r : Statement) (rest : List Statement) (k : Nat) :
    previous prev (r :: rest) (k + 1) = previous (some r) rest k := by
  cases k <;> rfl

section
variable {U : Unicode} {labels : Labels} {free : Nat → Bool}

theorem images_rule {statements : List Statement} {prev : Option Statement}
    (first : ∀ s, statements.head? = some s → takesIn U free prev s = false) {k : Nat}
    {s : Statement} (here : statements[k]? = some s) :
    (images U labels free statements)[k]? =
      some (if takesIn U free (previous prev statements k) s then []
        else (ruleAt U labels free s statements[k + 1]?).image s) := by
  induction statements using images.induct U labels free generalizing prev k with
  | case1 => cases here
  | case2 r =>
    cases k with
    | zero =>
      cases here
      rw [show previous prev [s] 0 = prev from rfl, first s rfl]
      rfl
    | succ k => cases here
  -- Behind a fold the rewrite goes on two statements further, and the second one was taken in.
  | case3 r t rest merged kept =>
    cases k with
    | zero =>
      cases here
      rw [show previous prev (s :: t :: rest) 0 = prev from rfl, first s rfl]
      rfl
    | succ k =>
      rw [previous_cons, List.getElem?_cons_succ]
      rw [List.getElem?_cons_succ] at here
      unfold images
      rw [List.getElem?_cons_succ]
      cases isRule : ruleAt U labels free r (some t) with
      | fold total =>
        obtain ⟨t', same, found⟩ := ruleAt_fold isRule
        cases same
        cases k with
        | zero =>
          cases here
          have taken : takesIn U free (previous (some r) (s :: rest) 0) s = true := by
            show (folds U free r s).isSome = true
            rw [found]
            rfl
          rw [taken]
          rfl
        | succ k =>
          rw [previous_cons, List.getElem?_cons_succ]
          refine @merged (some t) (fun q _ => ?_) k here
          show (folds U free t q).isSome = false
          rw [folds_add (folds_some found).2.1]
          rfl
      | _ =>
        refine @kept (some r) (fun q isHead => ?_) k here
        cases isHead
        show (folds U free r t).isSome = false
        cases found : folds U free r t with
        | none => rfl
        | some total =>
          rw [ruleAt_folds found] at isRule
          cases isRule

theorem gone_loose {prev : Option Statement} {s : Statement} {next : Option Statement}
    (isGone : gone U labels free prev s next = true) : Loose free s := by
  obtain taken | empty := Bool.or_eq_true_iff.mp isGone
  · obtain ⟨r, -, found⟩ := (Option.any_eq_true ..).mp taken
    obtain ⟨total, found⟩ := Option.isSome_iff_exists.mp found
    exact (folds_some found).2.2
  · obtain ⟨-, loose⟩ | ⟨s', image, -⟩ := @ruleAt_image U labels free s next
    · exact loose
    · rw [image] at empty
      cases empty

theorem deletedBefore_next {statements : List Statement} {start stop : Nat}
    {prev : Option Statement} (follows : Follows U start statements stop) {k : Nat} {s : Statement}
    (here : statements[k]? = some s) (size : s.size = 2) :
    deletedBefore U labels free (s.pc + 2) prev statements =
      deletedBefore U labels free s.pc prev statements +
        if gone U labels free (previous prev statements k) s statements[k + 1]? then 2 else 0 := by
  induction statements generalizing start prev k with
  | nil => cases here
  | cons r rest ih =>
    obtain ⟨low, later⟩ := follows.tail
    cases k with
    | zero =>
      cases here
      rw [deletedBefore, deletedBefore, deletedBefore_above _ later (by omega),
        deletedBefore_above _ later (by omega), decide_eq_true (by omega : s.pc < s.pc + 2),
        decide_eq_false (Nat.lt_irrefl s.pc), Bool.true_and, Bool.false_and,
        if_neg Bool.false_ne_true, Nat.zero_add, Nat.add_zero, List.head?_eq_getElem?]
      rfl
    | succ k =>
      rw [List.getElem?_cons_succ] at here
      rw [deletedBefore, deletedBefore, previous_cons, List.getElem?_cons_succ,
        @ih (start + r.size) (some r) later k here]
      have order : r.pc + r.size ≤ s.pc := by
        have beyond := later.pc here
        omega
      have same : (decide (r.pc < s.pc + 2) && gone U labels free prev r rest.head?) =
          (decide (r.pc < s.pc) && gone U labels free prev r rest.head?) := by
        cases isGone : gone U labels free prev r rest.head? with
        | false => rw [Bool.and_false, Bool.and_false]
        | true =>
          have two := (gone_loose isGone).op.elim (size_of_mnemonic follows List.mem_cons_self)
            (size_of_mnemonic follows List.mem_cons_self)
          rw [decide_eq_true (by omega : r.pc < s.pc + 2), decide_eq_true (by omega : r.pc < s.pc)]
      rw [same, Nat.add_assoc]

theorem fateFrom_at {statements : List Statement} {start stop : Nat} {prev : Option Statement}
    (follows : Follows U start statements stop)
    (sizes : ∀ r ∈ statements, isInstruction r = true → r.size = 2) {k : Nat} {s : Statement}
    (here : statements[k]? = some s) (isInsn : isInstruction s = true) :
    fateFrom U labels free s.pc prev statements =
      if takesIn U free (previous prev statements k) s then .merged
      else (ruleAt U labels free s statements[k + 1]?).fate := by
  induction statements generalizing start prev k with
  | nil => cases here
  | cons r rest ih =>
    obtain ⟨low, later⟩ := follows.tail
    cases k with
    | zero =>
      cases here
      rw [fateFrom, isInsn, beq_self_eq_true, Bool.and_self, if_pos rfl, List.head?_eq_getElem?]
      rfl
    | succ k =>
      rw [List.getElem?_cons_succ] at here
      have apart : (isInstruction r && r.pc == s.pc) = false := by
        cases isInsn' : isInstruction r with
        | false => rfl
        | true =>
          have two := sizes r List.mem_cons_self isInsn'
          have beyond := later.pc here
          exact beq_false_of_ne (by omega)
      rw [fateFrom, apart, if_neg Bool.false_ne_true, previous_cons, List.getElem?_cons_succ]
      exact @ih (start + r.size) (some r) later
        (fun q inside => sizes q (List.mem_cons_of_mem _ inside)) k here

theorem fateFrom_merged {statements : List Statement} {prev : Option Statement} {pc : Nat}
    (merged : fateFrom U labels free pc prev statements = .merged) :
    ∃ k s, statements[k]? = some s ∧ isInstruction s = true ∧ s.pc = pc ∧
      takesIn U free (previous prev statements k) s = true := by
  induction statements generalizing prev with
  | nil => cases merged
  | cons r rest ih =>
    rw [fateFrom] at merged
    split at merged
    · rename_i here
      obtain ⟨isInsn, same⟩ := Bool.and_eq_true_iff.mp here
      split at merged
      · rename_i taken
        exact ⟨0, r, rfl, isInsn, beq_iff_eq.mp same, taken⟩
      · cases isRule : ruleAt U labels free r rest.head? <;> rw [isRule] at merged <;> cases merged
    · obtain ⟨k, s, here, isInsn, same, taken⟩ := ih merged
      refine ⟨k + 1, s, here, isInsn, same, ?_⟩
      rw [previous_cons]
      exact taken

end

end ChipEight.Opt
