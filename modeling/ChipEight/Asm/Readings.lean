import ChipEight.Asm.Meaning

/-! A line under two readings of its operands.

What the assembler makes of a line depends on the symbol table only through the values of
the operands. A line that is read under one table is read under every table that has as
much in it; and where the last operand is put for another one, the line stays what it was
just if both are the same address.
-/

set_option autoImplicit false

namespace ChipEight.Asm

/-! ## Tables -/

/-- What is read is read by the other too, as no more, or as exactly as much. -/
def Below (exact : Prop) (read read' : Reader) : Prop :=
  ∀ a n, read a = .ok n → ∃ n', read' a = .ok n' ∧ n' ≤ n ∧ (exact → n' = n)

theorem below_earlier {earlier later : List Symbol} (extends' : Extends later earlier) :
    Below False (value later true) (value earlier false) := by
  intro a n known
  unfold value at known ⊢
  cases number : strtoul a with
  | some m =>
    rw [number] at known
    exact ⟨n, known, Nat.le_refl n, False.elim⟩
  | none =>
    rw [number] at known
    dsimp only at known ⊢
    cases found : lookup earlier a with
    | none => exact ⟨0, rfl, Nat.zero_le n, False.elim⟩
    | some symbol =>
      rw [extends'.lookup found] at known
      exact ⟨n, known, Nat.le_refl n, False.elim⟩

theorem below_larger {symbols symbols' : List Symbol}
    (larger : ∀ a symbol, lookup symbols a = some symbol → lookup symbols' a = some symbol) :
    Below True (value symbols true) (value symbols' true) := by
  intro a n known
  refine ⟨n, ?_, Nat.le_refl n, fun _ => rfl⟩
  unfold value at known ⊢
  cases number : strtoul a with
  | some m =>
    rw [number] at known
    exact known
  | none =>
    rw [number] at known
    dsimp only at known ⊢
    cases found : lookup symbols a with
    | none =>
      rw [found] at known
      cases known
    | some symbol =>
      rw [found] at known
      rw [larger a symbol found]
      exact known

theorem Below.exact {read read' : Reader} (below : Below True read read') {a : Token} {n : Nat}
    (known : read a = .ok n) : read' a = .ok n := by
  obtain ⟨n', known', -, same⟩ := below a n known
  rw [known', same trivial]

/-! ## Lines -/

/-- A result that the other reading has too, the same if values are. -/
def Likewise {α : Type} (exact : Prop) (result result' : Except Problem α) : Prop :=
  ∀ r, result = .ok r → ∃ r', result' = .ok r' ∧ (exact → r' = r)

section
variable {exact : Prop}

theorem Likewise.refl {α : Type} (result : Except Problem α) : Likewise exact result result :=
  fun r same => ⟨r, same, fun _ => rfl⟩

theorem Likewise.behind {α β : Type} (result : Except Problem α) {f f' : α → Except Problem β}
    (rest : ∀ a, Likewise exact (f a) (f' a)) : Likewise exact (result >>= f) (result >>= f') := by
  intro r ok
  obtain ⟨a, first, ok⟩ := bind_ok.mp ok
  obtain ⟨r', second, same⟩ := rest a r ok
  exact ⟨r', bind_ok.mpr ⟨a, first, second⟩, same⟩

theorem Likewise.map {α β : Type} {result result' : Except Problem α}
    (like : Likewise exact result result') (f : α → β) :
    Likewise exact (result >>= fun a => .ok (f a)) (result' >>= fun a => .ok (f a)) := by
  intro r ok
  obtain ⟨a, first, ok⟩ := bind_ok.mp ok
  obtain ⟨a', first', same⟩ := like a first
  exact ⟨f a', bind_ok.mpr ⟨a', first', rfl⟩, fun e => by rw [same e]; exact Except.ok.inj ok⟩

theorem Likewise.ite {α : Type} {c : Prop} [Decidable c] {x y x' y' : Except Problem α}
    (yes : Likewise exact x x') (no : Likewise exact y y') :
    Likewise exact (if c then x else y) (if c then x' else y') := by
  split
  · exact yes
  · exact no

variable {read read' : Reader}

theorem immediate_likewise (below : Below exact read read') (a : Token) (max : Nat)
    (problem : Nat → Problem) :
    Likewise exact (immediate read a max problem) (immediate read' a max problem) := by
  intro w ok
  obtain ⟨n, known, ok⟩ := bind_ok.mp ok
  obtain ⟨u, small, ok⟩ := bind_ok.mp ok
  obtain ⟨n', known', less, same⟩ := below a n known
  have fits := range_ok.mp small
  refine ⟨BitVec.ofNat 16 n', ?_, fun e => by rw [same e]; exact Except.ok.inj ok⟩
  exact bind_ok.mpr ⟨n', known', bind_ok.mpr ⟨(), range_ok.mpr (Nat.le_trans less fits), rfl⟩⟩

theorem skipWord_likewise (below : Below exact read read') (registers bytes : Word) (a b : Token) :
    Likewise exact (skipWord read registers bytes a b) (skipWord read' registers bytes a b) :=
  .behind _ fun _ => .ite (.refl _) ((immediate_likewise below b 0xff .byteRange).map _)

theorem loadWord_likewise (below : Below exact read read') (a b : Token) :
    Likewise exact (loadWord read a b) (loadWord read' a b) := by
  refine .ite ((immediate_likewise below b 0xfff .addressRange).map _) ?_
  refine .ite (.refl _) (.ite (.refl _) (.ite (.refl _) (.ite (.refl _) (.ite (.refl _) ?_))))
  refine .behind _ fun x => .ite (.refl _) (.ite (.refl _) (.ite (.refl _) (.ite (.refl _) ?_)))
  exact (immediate_likewise below b 0xff .byteRange).map _

theorem addWord_likewise (below : Below exact read read') (a b : Token) :
    Likewise exact (addWord read a b) (addWord read' a b) :=
  .ite (.refl _) (.behind _ fun _ =>
    .ite (.refl _) ((immediate_likewise below b 0xff .byteRange).map _))

theorem instruction_likewise (below : Below exact read read') (op : Token) (args : List Token) :
    Likewise exact (instruction read op args) (instruction read' op args) := by
  have address (a : Token) := immediate_likewise below a 0xfff .addressRange
  have byte (a : Token) := immediate_likewise below a 0xff .byteRange
  unfold instruction
  split
  case h_3 a _ => exact (address a).map _
  case h_4 v a _ => exact .ite (.refl _) ((address a).map _)
  case h_5 a _ => exact (address a).map _
  case h_6 a b _ => exact skipWord_likewise below _ _ a b
  case h_7 a b _ => exact skipWord_likewise below _ _ a b
  case h_8 a b _ => exact loadWord_likewise below a b
  case h_9 a b _ => exact addWord_likewise below a b
  case h_19 a b _ => exact .behind _ fun _ => (byte b).map _
  case h_20 a b c _ =>
    exact .behind _ fun _ => .behind _ fun _ =>
      (immediate_likewise below c 0xf .nibbleRange).map _
  all_goals exact .refl _

theorem dataBytes_likewise (below : Below exact read read') (max : Nat)
    (problem : Nat → Problem) (emit : Nat → List Byte) (args : List Token) :
    Likewise exact (dataBytes read max problem emit args)
      (dataBytes read' max problem emit args) := by
  intro out ok
  obtain ⟨vs, reads, rfl⟩ := dataBytes_ok.mp ok
  have others : ∃ vs', List.Forall₂ (fun t v => read' t = .ok v ∧ v ≤ max) args vs' ∧
      (exact → vs' = vs) := by
    clear ok
    induction reads with
    | nil => exact ⟨[], .nil, fun _ => rfl⟩
    | @cons t v _ _ here _ ih =>
      obtain ⟨v', known, less, same⟩ := below t v here.1
      obtain ⟨vs', reads', same'⟩ := ih
      exact ⟨v' :: vs', .cons ⟨known, Nat.le_trans less here.2⟩ reads',
        fun e => by rw [same e, same' e]⟩
  obtain ⟨vs', reads', same⟩ := others
  exact ⟨_, dataBytes_ok.mpr ⟨vs', reads', rfl⟩, fun e => by rw [same e]⟩

theorem lineSize_likewise (below : Below exact read read') (pc : Nat) {ts : List Token}
    (plain : ts.head? ≠ some dirOrg) :
    Likewise exact (lineSize read pc ts) (lineSize read' pc ts) := by
  cases ts with
  | nil => exact .refl _
  | cons op args =>
    have other : (op == dirOrg) = false := beq_false_of_ne fun same => plain (congrArg some same)
    simp only [lineSize, other, Bool.false_eq_true, if_false]
    refine .ite (.ite (.refl _) ?_) (.ite (.ite (.refl _) ?_) ?_)
    · exact (dataBytes_likewise below 0xff .byteRange byteOf args).map _
    · exact (dataBytes_likewise below 0xffff .wordRange wordOf args).map _
    · exact (instruction_likewise below op args).map _

theorem lineSize_positive {pc size : Nat} {ts : List Token} {out : List Byte}
    (plain : ts.head? ≠ some dirOrg) (some : ts ≠ [])
    (sized : lineSize read pc ts = .ok (size, out)) : 0 < size := by
  cases ts with
  | nil => exact absurd rfl some
  | cons op args =>
    have other : (op == dirOrg) = false := beq_false_of_ne fun same => plain (congrArg _ same)
    have length : args.isEmpty = false → 0 < args.length := fun some =>
      List.length_pos_iff.mpr (List.isEmpty_eq_false_iff.mp some)
    simp only [lineSize, other, Bool.false_eq_true, if_false] at sized
    split at sized
    · split at sized
      · cases sized
      · rename_i some
        obtain ⟨_, -, same⟩ := bind_ok.mp sized
        cases same
        exact length (Bool.eq_false_iff.mpr some)
    split at sized
    · split at sized
      · cases sized
      · rename_i some
        obtain ⟨_, -, same⟩ := bind_ok.mp sized
        cases same
        exact Nat.mul_pos (by decide) (length (Bool.eq_false_iff.mpr some))
    · obtain ⟨_, -, same⟩ := bind_ok.mp sized
      cases same
      decide

theorem lineSize_first (below : Below False read read') {pc size : Nat} {ts : List Token}
    {out : List Byte} (plain : ts.head? ≠ some dirOrg)
    (sized : lineSize read pc ts = .ok (size, out)) :
    ∃ out', lineSize read' pc ts = .ok (size, out') := by
  obtain ⟨⟨size', out'⟩, sized', -⟩ := lineSize_likewise below pc plain _ sized
  rw [(lineSize_plain plain sized).2, ← (lineSize_plain plain sized').2]
  exact ⟨out', sized'⟩

end

/-! ## Last operands -/

/-- What the last operand of an instruction is read as. -/
inductive Operand where
  | address (z : Addr)
  | number
  | word
  deriving DecidableEq

def lastOperand : Insn → Operand
  | .jp z => .address z
  | .jpV0 z => .address z
  | .call z => .address z
  | .ldI z => .address z
  | .skip (.eqImm _ _) => .number
  | .skip (.neImm _ _) => .number
  | .ld _ _ => .number
  | .add _ _ => .number
  | .rnd _ _ => .number
  | .drw _ _ _ => .number
  | _ => .word

/-- The statements that take an address: their operations, and the operands in front of it. -/
inductive Addressed (z : Addr) : Mnemonic → List Token → Insn → Prop where
  | jp : Addressed z .jp [] (.jp z)
  | jpV0 : Addressed z .jp [wordV0] (.jpV0 z)
  | call : Addressed z .call [] (.call z)
  | ldI : Addressed z .ld [wordI] (.ldI z)

/-- The words an operand may be: a register, a timer or a key. -/
def IsKeyword (a : Token) : Prop := (∃ x, reg a = .ok x) ∨ a ∈ loadForms.map Prod.fst

section
variable {read read' : Reader}

theorem Addressed.word {z : Addr} {m : Mnemonic} {front : List Token} {i : Insn}
    (addressed : Addressed z m front i) {a : Token} (target : read a = .ok z.toNat) :
    instruction read m.text (front ++ [a]) = .ok (encode i) := by
  have known : address read a = .ok (z.setWidth 16) := by
    have bound := z.isLt
    refine bind_ok.mpr ⟨_, target, bind_ok.mpr ⟨(), range_ok.mpr (by omega), ?_⟩⟩
    exact congrArg Except.ok (BitVec.ofNat_toNat 16 z)
  cases addressed <;> exact bind_ok.mpr ⟨_, known, rfl⟩

theorem means_last {m : Mnemonic} {args : List Token} {i : Insn} (means : Means read m args i) :
    (∃ front a z, args = front ++ [a] ∧ lastOperand i = .address z ∧ Addressed z m front i ∧
        read a = .ok z.toNat) ∨
      (lastOperand i = .number ∧ ∀ a, args.getLast? = some a → ∃ n < 256, read a = .ok n) ∨
      lastOperand i = .word ∧ ∀ a, args.getLast? = some a → IsKeyword a := by
  -- The last operand is an address, a number of at most a byte, or a word that is no number.
  have stores {a : Token} {f : Reg → Insn} (form : (a, f) ∈ storeForms) (x : Reg) :
      lastOperand (f x) = .word := by
    simp only [storeForms, List.mem_cons, Prod.mk.injEq, List.not_mem_nil, or_false] at form
    rcases form with ⟨-, rfl⟩ | ⟨-, rfl⟩ | ⟨-, rfl⟩ | ⟨-, rfl⟩ | ⟨-, rfl⟩ <;> rfl
  have loads {a : Token} {f : Reg → Insn} (form : (a, f) ∈ loadForms) (x : Reg) :
      lastOperand (f x) = .word := by
    simp only [loadForms, List.mem_cons, Prod.mk.injEq, List.not_mem_nil, or_false] at form
    rcases form with ⟨-, rfl⟩ | ⟨-, rfl⟩ | ⟨-, rfl⟩ <;> rfl
  have register {b : Token} {x : Reg} (known : reg b = .ok x) (a : Token)
      (isLast : some b = some a) : IsKeyword a := .inl ⟨x, Option.some.inj isLast ▸ known⟩
  have keyword {b : Token} {f : Reg → Insn} (form : (b, f) ∈ loadForms) (a : Token)
      (isLast : some b = some a) : IsKeyword a :=
    .inr (Option.some.inj isLast ▸ List.mem_map_of_mem form)
  have number {b : Token} {n : Nat} (small : n < 256) (known : read b = .ok n) (a : Token)
      (isLast : some b = some a) : ∃ n < 256, read a = .ok n :=
    ⟨n, small, Option.some.inj isLast ▸ known⟩
  have nothing (a : Token) (isLast : none = some a) : IsKeyword a := by cases isLast
  cases means with
  | @jp a z target => exact .inl ⟨[], a, z, rfl, rfl, .jp, target⟩
  | @jpV0 a z target => exact .inl ⟨[wordV0], a, z, rfl, rfl, .jpV0, target⟩
  | @call a z target => exact .inl ⟨[], a, z, rfl, rfl, .call, target⟩
  | @ldI a z target => exact .inl ⟨[wordI], a, z, rfl, rfl, .ldI, target⟩
  | cls => exact .inr (.inr ⟨rfl, nothing⟩)
  | ret => exact .inr (.inr ⟨rfl, nothing⟩)
  | seReg _ second => exact .inr (.inr ⟨rfl, register second⟩)
  | sneReg _ second => exact .inr (.inr ⟨rfl, register second⟩)
  | move _ second => exact .inr (.inr ⟨rfl, register second⟩)
  | addI second => exact .inr (.inr ⟨rfl, register second⟩)
  | addReg _ second => exact .inr (.inr ⟨rfl, register second⟩)
  | alu _ _ second => exact .inr (.inr ⟨rfl, register second⟩)
  | shift _ first => exact .inr (.inr ⟨rfl, register first⟩)
  | skp first => exact .inr (.inr ⟨rfl, register first⟩)
  | sknp first => exact .inr (.inr ⟨rfl, register first⟩)
  | store form second => exact .inr (.inr ⟨stores form _, register second⟩)
  | load form _ => exact .inr (.inr ⟨loads form _, keyword form⟩)
  | seByte _ second => exact .inr (.inl ⟨rfl, number (BitVec.isLt _) second⟩)
  | sneByte _ second => exact .inr (.inl ⟨rfl, number (BitVec.isLt _) second⟩)
  | rnd _ second => exact .inr (.inl ⟨rfl, number (BitVec.isLt _) second⟩)
  | ld _ second _ => exact .inr (.inl ⟨rfl, number (BitVec.isLt _) second⟩)
  | add _ second _ => exact .inr (.inl ⟨rfl, number (BitVec.isLt _) second⟩)
  | @drw _ _ _ _ _ n _ _ third => exact .inr (.inl ⟨rfl, number (by omega) third⟩)

theorem encode_injective {i j : Insn} (same : encode i = encode j) : i = j := by
  have decoded := decode_encode i
  rw [same, decode_encode] at decoded
  exact (Option.some.inj decoded).symm

/-- Another last operand that is an address makes the same word just if the one in its place
is that address. -/
theorem instruction_last {op : Token} {front : List Token} {a b : Token} {v : Nat} {w : Word}
    (number : ¬ IsKeyword a) (large : 256 ≤ v) (known : read' b = .ok v)
    (ok : instruction read op (front ++ [a]) = .ok w) :
    instruction read' op (front ++ [b]) = .ok w ↔ read a = .ok v := by
  obtain ⟨m, rfl, i, means, rfl⟩ := instruction_encodes ok
  constructor
  · intro ok'
    obtain ⟨m', -, j, means', word⟩ := instruction_encodes ok'
    obtain rfl := encode_injective word
    obtain ⟨_, a', z, same, isAddress, -, target⟩ | ⟨isByte, -⟩ | ⟨-, keyword⟩ := means_last means
    · obtain ⟨_, b', y, same', isAddress', -, target'⟩ | ⟨isByte, -⟩ | ⟨isWord, -⟩ :=
        means_last means'
      · obtain rfl : a = a' := (List.cons.inj (List.append_inj' same rfl).2).1
        obtain rfl : b = b' := (List.cons.inj (List.append_inj' same' rfl).2).1
        cases isAddress.symm.trans isAddress'
        exact target.trans (target'.symm.trans known)
      · cases isAddress.symm.trans isByte
      · cases isAddress.symm.trans isWord
    · -- no address fits in the place of a byte
      obtain ⟨_, _, y, -, isAddress, -⟩ | ⟨-, small⟩ | ⟨isWord, -⟩ := means_last means'
      · cases isByte.symm.trans isAddress
      · obtain ⟨n, fits, known'⟩ := small b List.getLast?_concat
        have same := Except.ok.inj (known.symm.trans known')
        omega
      · cases isByte.symm.trans isWord
    · exact absurd (keyword a List.getLast?_concat) number
  · intro address
    obtain ⟨first, a', z, same, -, addressed, target⟩ | ⟨-, small⟩ | ⟨-, keyword⟩ :=
      means_last means
    · obtain ⟨rfl, lasts⟩ := List.append_inj' same rfl
      obtain rfl : a = a' := (List.cons.inj lasts).1
      rw [target] at address
      exact addressed.word (Except.ok.inj address ▸ known)
    · obtain ⟨n, fits, known'⟩ := small a List.getLast?_concat
      have same := Except.ok.inj (address.symm.trans known')
      omega
    · exact absurd (keyword a List.getLast?_concat) number

theorem forall₂_concat {α β : Type} {P : α → β → Prop} {xs : List α} {x : α} {ys : List β}
    (pairs : List.Forall₂ P (xs ++ [x]) ys) :
    ∃ ys' y, ys = ys' ++ [y] ∧ List.Forall₂ P xs ys' ∧ P x y := by
  induction xs generalizing ys with
  | nil =>
    cases pairs with
    | cons here rest =>
      cases rest
      exact ⟨[], _, rfl, .nil, here⟩
  | cons x' xs ih =>
    cases pairs with
    | @cons _ y' _ ys here rest =>
      obtain ⟨ys', y, rfl, first, last⟩ := ih rest
      exact ⟨y' :: ys', y, rfl, .cons here first, last⟩

theorem wordOf_injective {v w : Nat} (small : v ≤ 0xffff) (small' : w ≤ 0xffff)
    (same : wordOf v = wordOf w) : v = w := by
  have numbers := congrArg BitVec.toNat (wordBytes_inj same)
  rw [BitVec.toNat_ofNat, BitVec.toNat_ofNat] at numbers
  omega

theorem byteOf_injective {v w : Nat} (small : v ≤ 0xff) (small' : w ≤ 0xff)
    (same : byteOf v = byteOf w) : v = w := by
  have bytes : BitVec.ofNat 8 v = BitVec.ofNat 8 w := (List.cons.inj same).1
  have numbers := congrArg BitVec.toNat bytes
  rw [BitVec.toNat_ofNat, BitVec.toNat_ofNat] at numbers
  omega

theorem dataBytes_last {max : Nat} {problem : Nat → Problem} {emit : Nat → List Byte}
    {front : List Token} {a b : Token} {v : Nat} {out : List Byte} (below : Below True read read')
    (injective : ∀ x ≤ max, ∀ y ≤ max, emit x = emit y → x = y) (known : read' b = .ok v)
    (ok : dataBytes read max problem emit (front ++ [a]) = .ok out) :
    dataBytes read' max problem emit (front ++ [b]) = .ok out ↔ read a = .ok v := by
  obtain ⟨vs, reads, rfl⟩ := dataBytes_ok.mp ok
  obtain ⟨vs, x, rfl, before, here⟩ := forall₂_concat reads
  have before' : List.Forall₂ (fun t v => read' t = .ok v ∧ v ≤ max) front vs :=
    before.imp fun t n here => ⟨below.exact here.1, here.2⟩
  constructor
  · intro ok'
    obtain ⟨vs', reads', same⟩ := dataBytes_ok.mp ok'
    obtain ⟨vs', y, rfl, before'', here'⟩ := forall₂_concat reads'
    have values : vs' = vs := by
      clear same reads' reads ok ok' before
      induction before' generalizing vs' with
      | nil =>
        cases before''
        rfl
      | @cons t n _ _ first _ ih =>
        cases before'' with
        | @cons _ n' _ ns first' rest => rw [ih ns rest, Except.ok.inj (first'.1.symm.trans first.1)]
    subst values
    rw [List.map_append, List.map_append, List.flatten_append, List.flatten_append,
      List.append_cancel_left_eq, List.map_singleton, List.map_singleton, List.flatten_singleton,
      List.flatten_singleton] at same
    rw [here.1, injective x here.2 y here'.2 same]
    exact here'.1.symm.trans known
  · intro address
    have same : x = v := Except.ok.inj (here.1.symm.trans address)
    subst same
    exact dataBytes_ok.mpr ⟨vs ++ [x], List.rel_append before' (.cons ⟨known, here.2⟩ .nil), rfl⟩

theorem lineSize_last {pc size : Nat} {op : Token} {front : List Token} {a b : Token} {v : Nat}
    {out : List Byte} (below : Below True read read') (plain : op ≠ dirOrg)
    (number : ¬ IsKeyword a) (large : 256 ≤ v) (known : read' b = .ok v)
    (ok : lineSize read pc (op :: (front ++ [a])) = .ok (size, out)) :
    lineSize read' pc (op :: (front ++ [b])) = .ok (size, out) ↔ read a = .ok v := by
  have other : (op == dirOrg) = false := beq_false_of_ne plain
  have some (c : Token) : (front ++ [c]).isEmpty = false := by simp
  have length (c : Token) : (front ++ [c]).length = front.length + 1 := by simp
  have data {max k : Nat} {problem : Nat → Problem} {emit : Nat → List Byte}
      (injective : ∀ x ≤ max, ∀ y ≤ max, emit x = emit y → x = y)
      (ok : (dataBytes read max problem emit (front ++ [a]) >>= fun out => Except.ok (k, out)) =
        .ok (size, out)) :
      (dataBytes read' max problem emit (front ++ [b]) >>= fun out => Except.ok (k, out)) =
        .ok (size, out) ↔ read a = .ok v := by
    obtain ⟨_, first, same⟩ := bind_ok.mp ok
    cases same
    rw [← dataBytes_last below injective known first]
    constructor
    · intro ok'
      obtain ⟨_, first', same⟩ := bind_ok.mp ok'
      cases same
      exact first'
    · intro first'
      exact bind_ok.mpr ⟨_, first', rfl⟩
  simp only [lineSize, other, some, length, Bool.false_eq_true, if_false] at ok ⊢
  by_cases isByte : (op == dirByte) = true
  · rw [if_pos isByte] at ok ⊢
    exact data (fun x small y small' => byteOf_injective small small') ok
  rw [if_neg isByte] at ok ⊢
  by_cases isWord : (op == dirWord) = true
  · rw [if_pos isWord] at ok ⊢
    exact data (fun x small y small' => wordOf_injective small small') ok
  rw [if_neg isWord] at ok ⊢
  obtain ⟨w, first, same⟩ := bind_ok.mp ok
  cases same
  rw [← instruction_last number large known first]
  constructor
  · intro ok'
    obtain ⟨w', first', same⟩ := bind_ok.mp ok'
    have bytes : wordBytes w' = wordBytes w := congrArg Prod.snd (Except.ok.inj same)
    rw [first', wordBytes_inj bytes]
  · intro first'
    exact bind_ok.mpr ⟨w, first', rfl⟩

end

end ChipEight.Asm
