import ChipEight.Library.Numeral
import ChipEight.Opt.Peephole
import ChipEight.Asm.Meaning
import ChipEight.Opt.Reading
import Mathlib.Data.List.Forall2

/-! The numbers of both front ends.

`parse_number` reads what `strtoul` reads with base 0 as long as a number is plain: hexadecimal
behind `0x`, or digits. A sign separates them, since `int (word, 10)` does not look for a
prefix behind it; so do underscores, a second prefix and digits of other scripts.
-/

set_option autoImplicit false

namespace ChipEight.Opt

open Asm (Text Token isdigit isxdigit digitValue numeralFrom numeral magnitude strtoul ulongMax)

/-! ## Tokens -/

def decimal (s : Text) : Bool := !s.isEmpty && s.all isdigit

def hexadecimal (s : Text) : Bool := !s.isEmpty && s.all isxdigit

def zeros (s : Text) : Bool := s.all (· == '0')

/-- A number both front ends read alike. Behind a sign a leading zero makes an octal number for
`strtoul` only. -/
def alike : Token → Bool
  | '0' :: 'x' :: s => hexadecimal s
  | '0' :: 'X' :: s => hexadecimal s
  | '-' :: s => !s.isEmpty && zeros s
  | '+' :: s => decimal s &&
      (s.head? != some '0' || s.all (Asm.between '0' '7') && zeros s.dropLast)
  | s => decimal s

/-! ## Digits -/

/-- The value of a digit of a base. -/
structure Digit (base : Nat) (c : Char) (d : Nat) : Prop where
  value : digitValue c = some d
  small : d < base

theorem numeralFrom_iff {base n m : Nat} {t : Text} :
    numeralFrom base n t = some m ↔
      ∃ ds, List.Forall₂ (Digit base) t ds ∧ m = Numeral.value base n ds := by
  induction t generalizing n with
  | nil =>
    constructor
    · intro read
      exact ⟨[], .nil, (Option.some.inj read).symm⟩
    · rintro ⟨ds, digits, rfl⟩
      cases digits
      rfl
  | cons c t ih =>
    rw [numeralFrom]
    constructor
    · intro read
      split at read
      · rename_i d known
        split at read
        · rename_i small
          obtain ⟨ds, digits, rfl⟩ := ih.mp read
          exact ⟨d :: ds, .cons ⟨known, small⟩ digits, rfl⟩
        · cases read
      · cases read
    · rintro ⟨ds, digits, rfl⟩
      cases digits with
      | cons digit rest =>
        rw [digit.value]
        dsimp only
        rw [if_pos digit.small]
        exact ih.mpr ⟨_, rest, rfl⟩

theorem numeral_iff {base m : Nat} {t : Text} :
    numeral base t = some m ↔
      t ≠ [] ∧ ∃ ds, List.Forall₂ (Digit base) t ds ∧ m = Numeral.value base 0 ds := by
  unfold numeral
  split
  · rename_i empty
    exact ⟨fun wrong => (nomatch wrong), fun both => absurd (List.isEmpty_iff.mp empty) both.1⟩
  · rename_i some
    rw [numeralFrom_iff]
    exact (and_iff_right fun empty => some (List.isEmpty_iff.mpr empty)).symm

theorem digit_cases : ∀ n < 128, (digitValue (Char.ofNat n)).all (fun d =>
    isdigit (Char.ofNat n) == decide (d < 10) && isxdigit (Char.ofNat n) == decide (d < 16) &&
      Asm.between '0' '7' (Char.ofNat n) == decide (d < 8) &&
      (Char.ofNat n == '0') == decide (d = 0) && Char.ofNat n != '_') = true := by
  decide +kernel

/-- What the value of a digit says about its character. -/
structure DigitFacts (c : Char) (d : Nat) : Prop where
  decimal : isdigit c = true ↔ d < 10
  hexadecimal : isxdigit c = true ↔ d < 16
  octal : Asm.between '0' '7' c = true ↔ d < 8
  zero : c = '0' ↔ d = 0
  notUnderscore : c ≠ '_'

theorem digit_facts {c : Char} {d : Nat} (known : digitValue c = some d) : DigitFacts c d := by
  have all := digit_cases c.toNat (Asm.digitValue_ascii known)
  rw [Char.ofNat_toNat, known, Option.all_some] at all
  simp only [Bool.and_eq_true, beq_iff_eq, bne_iff_ne] at all
  obtain ⟨⟨⟨⟨decimal, hexadecimal⟩, octal⟩, zero⟩, notUnderscore⟩ := all
  refine ⟨?_, ?_, ?_, ?_, notUnderscore⟩
  · rw [decimal, decide_eq_true_iff]
  · rw [hexadecimal, decide_eq_true_iff]
  · rw [octal, decide_eq_true_iff]
  · rw [← beq_iff_eq, zero, decide_eq_true_iff]

theorem digit_total : ∀ n < 128, isxdigit (Char.ofNat n) = true →
    (digitValue (Char.ofNat n)).isSome = true := by
  decide +kernel

theorem xdigit_ascii {c : Char} (digit : isxdigit c = true) : c.toNat < 128 := by
  simp only [isxdigit, isdigit, Asm.between, Char.reduceToNat, Bool.or_eq_true, Bool.and_eq_true,
    decide_eq_true_eq] at digit
  omega

theorem digit_xdigit {c : Char} (digit : isdigit c = true) : isxdigit c = true := by
  unfold isxdigit
  rw [digit]
  rfl

theorem xdigit_value {c : Char} (digit : isxdigit c = true) : ∃ d, Digit 16 c d := by
  have total := digit_total c.toNat (xdigit_ascii digit)
  rw [Char.ofNat_toNat] at total
  obtain ⟨d, known⟩ := Option.isSome_iff_exists.mp (total digit)
  exact ⟨d, known, (digit_facts known).hexadecimal.mp digit⟩

theorem digits_exist {base : Nat} {t : Text} (all : ∀ c ∈ t, ∃ d, Digit base c d) :
    ∃ ds, List.Forall₂ (Digit base) t ds := by
  induction t with
  | nil => exact ⟨[], .nil⟩
  | cons c t ih =>
    obtain ⟨d, digit⟩ := all c List.mem_cons_self
    obtain ⟨ds, rest⟩ := ih fun c' later => all c' (List.mem_cons_of_mem c later)
    exact ⟨d :: ds, .cons digit rest⟩

theorem digits_all {base : Nat} {t : Text} {ds : List Nat} (digits : List.Forall₂ (Digit base) t ds)
    {p : Char → Prop} (holds : ∀ {c d}, Digit base c d → p c) : ∀ c ∈ t, p c := by
  induction digits with
  | nil => exact fun c impossible => absurd impossible List.not_mem_nil
  | cons digit _ ih => exact List.forall_mem_cons.mpr ⟨holds digit, ih⟩

theorem digits_zero {base : Nat} {t : Text} {ds : List Nat}
    (digits : List.Forall₂ (Digit base) t ds) : (∀ d ∈ ds, d = 0) ↔ zeros t = true := by
  induction digits with
  | nil => simp [zeros]
  | cons digit _ ih =>
    unfold zeros at ih ⊢
    rw [List.forall_mem_cons, List.all_cons, Bool.and_eq_true, ih, beq_iff_eq,
      (digit_facts digit.value).zero]

theorem decimal_iff (t : Text) : decimal t = true ↔ ∃ n, numeral 10 t = some n := by
  unfold decimal
  rw [Bool.and_eq_true, List.all_eq_true, Bool.not_eq_true', List.isEmpty_eq_false_iff]
  constructor
  · rintro ⟨some, all⟩
    obtain ⟨ds, digits⟩ : ∃ ds, List.Forall₂ (Digit 10) t ds := by
      apply digits_exist
      intro c here
      obtain ⟨d, digit⟩ := xdigit_value (digit_xdigit (all c here))
      exact ⟨d, digit.value, (digit_facts digit.value).decimal.mp (all c here)⟩
    exact ⟨_, numeral_iff.mpr ⟨some, ds, digits, rfl⟩⟩
  · rintro ⟨n, read⟩
    obtain ⟨some, ds, digits, -⟩ := numeral_iff.mp read
    exact ⟨some, digits_all digits fun digit => (digit_facts digit.value).decimal.mpr digit.small⟩

theorem hexadecimal_iff (t : Text) : hexadecimal t = true ↔ ∃ n, numeral 16 t = some n := by
  unfold hexadecimal
  rw [Bool.and_eq_true, List.all_eq_true, Bool.not_eq_true', List.isEmpty_eq_false_iff]
  constructor
  · rintro ⟨some, all⟩
    obtain ⟨ds, digits⟩ := digits_exist fun c here => xdigit_value (all c here)
    exact ⟨_, numeral_iff.mpr ⟨some, ds, digits, rfl⟩⟩
  · rintro ⟨n, read⟩
    obtain ⟨some, ds, digits, -⟩ := numeral_iff.mp read
    refine ⟨some, digits_all digits fun digit => (digit_facts digit.value).hexadecimal.mpr digit.small⟩

/-! ## `int` -/

/-- A character that is nothing special to `int`. -/
def PlainChars (t : Text) : Prop := ∀ c ∈ t, c.toNat < 128 ∧ c ≠ '_'

section
variable (U : Unicode)

theorem digit_bind (base : Nat) {c : Char} (small : c.toNat < 128) (f : Nat → Option Nat) :
    (digit U base c).bind f =
      match digitValue c with
      | some d => if d < base then f d else none
      | none => none := by
  have same : digit U base c = (digitValue c).filter (· < base) := by
    unfold digit digitValue
    rw [U.decimalAscii c small]
    cases isdigit c <;> rfl
  rw [same]
  cases digitValue c with
  | none => rfl
  | some d =>
    dsimp only
    rw [Option.filter_some]
    by_cases inside : d < base
    · rw [if_pos (decide_eq_true inside), if_pos inside]
      rfl
    · rw [if_neg (by simpa using inside), if_neg inside]
      rfl

theorem digitsFrom_plain {base n : Nat} {t : Text} (plain : PlainChars t) :
    digitsFrom U base n t = numeralFrom base n t := by
  induction t generalizing n with
  | nil => rfl
  | cons c t ih =>
    obtain ⟨small, notUnderscore⟩ := plain c List.mem_cons_self
    have step : digitsFrom U base n (c :: t) =
        (digit U base c).bind fun d => digitsFrom U base (n * base + d) t := by
      rw [digitsFrom]
      exact fun c' cs same => absurd same notUnderscore
    rw [step, digit_bind U base small, numeralFrom]
    cases digitValue c with
    | none => rfl
    | some d =>
      have rest := ih (n := n * base + d) fun c' later => plain c' (List.mem_cons_of_mem c later)
      exact congrArg (fun r => if d < base then r else none) rest

theorem digits_plain {base : Nat} {t : Text} (plain : PlainChars t) :
    digits U base t = numeral base t := by
  cases t with
  | nil => rfl
  | cons c t =>
    have rest : PlainChars t := fun c' later => plain c' (List.mem_cons_of_mem c later)
    rw [digits, digit_bind U base (plain c List.mem_cons_self).1]
    show _ = numeralFrom base 0 (c :: t)
    rw [numeralFrom]
    cases digitValue c with
    | none => rfl
    | some d =>
      show (if d < base then digitsFrom U base d t else none) =
        if d < base then numeralFrom base (0 * base + d) t else none
      rw [Nat.zero_mul, Nat.zero_add, digitsFrom_plain U rest]

theorem dropPrefix_ten (s : Text) : dropPrefix 10 s = s := by
  unfold dropPrefix
  split <;> first | rfl | contradiction

theorem int_plain {base : Nat} {s : Text} (plain : PlainChars s)
    (unsigned : s.head? ≠ some '-' ∧ s.head? ≠ some '+') (bare : dropPrefix base s = s) :
    int U base s = (numeral base s).map Int.ofNat := by
  rw [← digits_plain U plain]
  unfold int
  split
  · exact absurd rfl unsigned.1
  · exact absurd rfl unsigned.2
  · rw [bare]

end

theorem hexadecimal_all {s : Text} (good : hexadecimal s = true) : ∀ c ∈ s, isxdigit c = true :=
  List.all_eq_true.mp (Bool.and_eq_true_iff.mp good).2

theorem decimal_all {s : Text} (good : decimal s = true) : ∀ c ∈ s, isdigit c = true :=
  List.all_eq_true.mp (Bool.and_eq_true_iff.mp good).2

theorem plain_hexadecimal {s : Text} (all : ∀ c ∈ s, isxdigit c = true) : PlainChars s := by
  intro c here
  obtain ⟨d, digit⟩ := xdigit_value (all c here)
  exact ⟨xdigit_ascii (all c here), (digit_facts digit.value).notUnderscore⟩

theorem plain_decimal {s : Text} (good : decimal s = true) : PlainChars s :=
  plain_hexadecimal fun c here => digit_xdigit (decimal_all good c here)

theorem unsigned_hexadecimal {s : Text} (all : ∀ c ∈ s, isxdigit c = true) :
    (s.head? ≠ some '-' ∧ s.head? ≠ some '+') ∧ dropPrefix 16 s = s ∧ dropPrefix 8 s = s := by
  refine ⟨⟨fun minus => ?_, fun plus => ?_⟩, ?_, ?_⟩
  · exact absurd (all '-' (List.mem_of_mem_head? minus)) (by decide)
  · exact absurd (all '+' (List.mem_of_mem_head? plus)) (by decide)
  · unfold dropPrefix
    split
    · exact absurd (all 'x' (by simp)) (by decide)
    · exact absurd (all 'X' (by simp)) (by decide)
    · contradiction
    · contradiction
    · rfl
  · unfold dropPrefix
    split
    · contradiction
    · contradiction
    · exact absurd (all 'o' (by simp)) (by decide)
    · exact absurd (all 'O' (by simp)) (by decide)
    · rfl

theorem bounded_iff {m : Option Nat} {n : Nat} (small : n ≤ 0xffff) :
    (m.bind fun n => if n > ulongMax then none else some n) = some n ↔
      m.map Int.ofNat = some (n : Int) := by
  have far : 0xffff ≤ ulongMax := by decide
  cases m with
  | none => exact ⟨fun wrong => (nomatch wrong), fun wrong => (nomatch wrong)⟩
  | some k =>
    rw [Option.bind_some, Option.map_some, Option.some.injEq]
    constructor
    · intro read
      split at read
      · cases read
      · cases read
        rfl
    · intro same
      obtain rfl : k = n := Int.ofNat.inj same
      exact if_neg (by omega)

/-! ## Words of digits -/

theorem magnitude_octal {s : Text} (good : decimal ('0' :: s) = true) :
    magnitude ('0' :: s) = numeral 8 ('0' :: s) := by
  cases s with
  | nil => rfl
  | cons c s =>
    have digit : isdigit c = true := decimal_all good c (by simp)
    unfold magnitude
    split
    · rename_i same
      cases same
      exact absurd digit (by decide)
    · rename_i same
      cases same
      exact absurd digit (by decide)
    · rename_i same
      cases same
      rfl
    · rename_i other
      exact absurd rfl (other (c :: s))

theorem magnitude_ten {s : Text} (first : s.head? ≠ some '0') : magnitude s = numeral 10 s := by
  unfold magnitude
  split
  · exact absurd rfl first
  · exact absurd rfl first
  · exact absurd rfl first
  · rfl

theorem strtoul_unsigned {t : Token} (unsigned : t.head? ≠ some '-' ∧ t.head? ≠ some '+') :
    strtoul t = (magnitude t).bind fun n => if n > ulongMax then none else some n := by
  unfold strtoul
  split
  · exact absurd rfl unsigned.1
  · exact absurd rfl unsigned.2
  · rfl

theorem parseNumber_decimal (U : Unicode) {t : Token} (good : decimal t = true) :
    parseNumber U t = (magnitude t).map Int.ofNat := by
  have all := fun c here => digit_xdigit (decimal_all good c here)
  obtain ⟨unsigned, -, bare⟩ := unsigned_hexadecimal all
  unfold parseNumber
  split
  · exact absurd (decimal_all good 'x' (by simp)) (by decide)
  · exact absurd (decimal_all good 'X' (by simp)) (by decide)
  · rw [magnitude_octal good]
    exact int_plain U (plain_decimal good) unsigned bare
  · rename_i notOctal
    rw [int_plain U (plain_decimal good) unsigned (dropPrefix_ten t)]
    by_cases first : t.head? = some '0'
    · obtain ⟨rest, rfl⟩ := List.head?_eq_some_iff.mp first
      cases rest with
      | nil => rfl
      | cons c rest => exact absurd rfl (notOctal c rest)
    · rw [magnitude_ten first]

theorem numeral_zero {base : Nat} (positive : 0 < base) (t : Text) :
    numeral base t = some 0 ↔ t ≠ [] ∧ zeros t = true := by
  rw [numeral_iff]
  refine and_congr_right fun _ => ?_
  constructor
  · rintro ⟨ds, digits, none⟩
    exact (digits_zero digits).mp ((Numeral.value_zero_iff positive 0 ds).mp none.symm).2
  · intro none
    obtain ⟨ds, digits⟩ : ∃ ds, List.Forall₂ (Digit base) t ds := by
      apply digits_exist
      intro c here
      obtain rfl : c = '0' := beq_iff_eq.mp (List.all_eq_true.mp none c here)
      exact ⟨0, rfl, positive⟩
    have value := (Numeral.value_zero_iff positive 0 ds).mpr ⟨rfl, (digits_zero digits).mpr none⟩
    exact ⟨ds, digits, value.symm⟩

theorem digits_dropLast {base : Nat} {t : Text} {ds : List Nat}
    (digits : List.Forall₂ (Digit base) t ds) :
    List.Forall₂ (Digit base) t.dropLast ds.dropLast := by
  rw [List.dropLast_eq_take, List.dropLast_eq_take, digits.length_eq]
  exact List.forall₂_take _ digits

theorem octal_decimal {t : Text} {n : Nat} (octal : numeral 8 t = some n) :
    numeral 10 t = some n ↔ zeros t.dropLast = true := by
  obtain ⟨some, ds, digits, rfl⟩ := numeral_iff.mp octal
  have wider : List.Forall₂ (Digit 10) t ds :=
    digits.imp fun _ _ digit => ⟨digit.value, Nat.lt_trans digit.small (by decide)⟩
  have read : numeral 10 t = Option.some (Numeral.value 10 0 ds) :=
    numeral_iff.mpr ⟨some, ds, wider, rfl⟩
  rw [read, Option.some.injEq, ← digits_zero (digits_dropLast digits),
    ← Numeral.value_eq_iff (by decide : 0 < 8) (by decide : 8 < 10)]
  exact eq_comm

theorem octal_iff (t : Text) :
    (∃ n, numeral 8 t = some n) ↔ t ≠ [] ∧ t.all (Asm.between '0' '7') = true := by
  rw [List.all_eq_true]
  constructor
  · rintro ⟨n, read⟩
    obtain ⟨some, ds, digits, -⟩ := numeral_iff.mp read
    exact ⟨some, digits_all digits fun digit => (digit_facts digit.value).octal.mpr digit.small⟩
  · rintro ⟨some, all⟩
    obtain ⟨ds, digits⟩ : ∃ ds, List.Forall₂ (Digit 8) t ds := by
      apply digits_exist
      intro c here
      have octal := all c here
      have digit : isdigit c = true := by
        simp only [isdigit, Asm.between, Char.reduceToNat, Bool.and_eq_true, decide_eq_true_eq]
          at octal ⊢
        omega
      obtain ⟨d, known⟩ := xdigit_value (digit_xdigit digit)
      exact ⟨d, known.value, (digit_facts known.value).octal.mp octal⟩
    exact ⟨_, numeral_iff.mpr ⟨some, ds, digits, rfl⟩⟩

/-! ## Signs and prefixes -/

theorem int_minus (U : Unicode) (s : Text) :
    int U 10 ('-' :: s) = (digits U 10 s).map fun n : Nat => -(n : Int) := by
  rw [int, dropPrefix_ten]
  cases digits U 10 s <;> rfl

theorem parseNumber_minus (U : Unicode) {s : Text} (plain : PlainChars s) :
    parseNumber U ('-' :: s) = (numeral 10 s).map fun n : Nat => -(n : Int) := by
  rw [← digits_plain U plain]
  exact int_minus U s

theorem parseNumber_plus (U : Unicode) {s : Text} (plain : PlainChars s) :
    parseNumber U ('+' :: s) = (numeral 10 s).map Int.ofNat := by
  rw [← digits_plain U plain]
  show (digits U 10 (dropPrefix 10 s)).map _ = _
  rw [dropPrefix_ten]

theorem zeros_decimal {s : Text} (some : s ≠ []) (none : zeros s = true) : decimal s = true :=
  (decimal_iff s).mpr ⟨0, (numeral_zero (by decide) s).mpr ⟨some, none⟩⟩

theorem magnitude_zeros {s : Text} (nonempty : s ≠ []) (none : zeros s = true) :
    magnitude s = some 0 := by
  cases s with
  | nil => exact absurd rfl nonempty
  | cons c s =>
    obtain rfl : c = '0' := beq_iff_eq.mp (List.all_eq_true.mp none c List.mem_cons_self)
    rw [magnitude_octal (zeros_decimal nonempty none)]
    exact (numeral_zero (by decide) _).mpr ⟨nonempty, none⟩

theorem magnitude_alike {s : Text} (good : decimal s = true)
    (same : (s.head? != some '0' || s.all (Asm.between '0' '7') && zeros s.dropLast) = true) :
    magnitude s = numeral 10 s := by
  by_cases first : s.head? = some '0'
  · rw [first] at same
    obtain ⟨octal, none⟩ := Bool.and_eq_true_iff.mp ((Bool.or_eq_true_iff.mp same).resolve_left (by simp))
    obtain ⟨rest, rfl⟩ := List.head?_eq_some_iff.mp first
    obtain ⟨n, read⟩ := (octal_iff _).mpr ⟨List.cons_ne_nil _ _, octal⟩
    rw [magnitude_octal good, read, (octal_decimal read).mpr none]
  · exact magnitude_ten first

theorem alike_plain {t : Token} (good : alike t = true) : PlainChars t := by
  have behind {c : Char} {s : Text} (small : c.toNat < 128 ∧ c ≠ '_') (rest : PlainChars s) :
      PlainChars (c :: s) := List.forall_mem_cons.mpr ⟨small, rest⟩
  unfold alike at good
  split at good
  · exact behind (by decide) (behind (by decide) (plain_hexadecimal (hexadecimal_all good)))
  · exact behind (by decide) (behind (by decide) (plain_hexadecimal (hexadecimal_all good)))
  · obtain ⟨some, none⟩ := Bool.and_eq_true_iff.mp good
    have some := List.isEmpty_eq_false_iff.mp ((Bool.not_eq_true' _).mp some)
    exact behind (by decide) (plain_decimal (zeros_decimal some none))
  · exact behind (by decide) (plain_decimal (Bool.and_eq_true_iff.mp good).1)
  · exact plain_decimal good

theorem alike_reads (U : Unicode) {t : Token} (good : alike t = true) {n : Nat} (small : n ≤ 0xffff) :
    strtoul t = some n ↔ parseNumber U t = some (n : Int) := by
  unfold alike at good
  split at good
  · rename_i s
    have all := hexadecimal_all good
    obtain ⟨unsigned, bare, -⟩ := unsigned_hexadecimal all
    show (numeral 16 s).bind _ = _ ↔ int U 16 s = _
    rw [int_plain U (plain_hexadecimal all) unsigned bare]
    exact bounded_iff small
  · rename_i s
    have all := hexadecimal_all good
    obtain ⟨unsigned, bare, -⟩ := unsigned_hexadecimal all
    show (numeral 16 s).bind _ = _ ↔ int U 16 s = _
    rw [int_plain U (plain_hexadecimal all) unsigned bare]
    exact bounded_iff small
  · -- Minus zero.
    rename_i s
    obtain ⟨some, none⟩ := Bool.and_eq_true_iff.mp good
    have some := List.isEmpty_eq_false_iff.mp ((Bool.not_eq_true' _).mp some)
    have read : strtoul ('-' :: s) = Option.some 0 := by
      show (magnitude s).bind _ = _
      rw [magnitude_zeros some none]
      rfl
    rw [read, parseNumber_minus U (plain_decimal (zeros_decimal some none)),
      (numeral_zero (by decide) s).mpr ⟨some, none⟩, Option.map_some, Option.some.injEq,
      Option.some.injEq]
    omega
  · rename_i s
    obtain ⟨digits, same⟩ := Bool.and_eq_true_iff.mp good
    rw [parseNumber_plus U (plain_decimal digits), ← magnitude_alike digits same]
    exact bounded_iff small
  · rw [parseNumber_decimal U good, strtoul_unsigned
      (unsigned_hexadecimal fun c here => digit_xdigit (decimal_all good c here)).1]
    exact bounded_iff small

theorem magnitude_cases {s : Text} {n : Nat} (read : magnitude s = some n) :
    (∃ r, (s = '0' :: 'x' :: r ∨ s = '0' :: 'X' :: r) ∧ numeral 16 r = some n) ∨
      (s.head? = some '0' ∧ numeral 8 s = some n) ∨ (s.head? ≠ some '0' ∧ numeral 10 s = some n) := by
  unfold magnitude at read
  split at read
  · exact .inl ⟨_, .inl rfl, read⟩
  · exact .inl ⟨_, .inr rfl, read⟩
  · exact .inr (.inl ⟨rfl, read⟩)
  · rename_i notZero
    refine .inr (.inr ⟨fun first => ?_, read⟩)
    obtain ⟨rest, rfl⟩ := List.head?_eq_some_iff.mp first
    exact notZero rest rfl

theorem decimal_of_octal {s : Text} {n : Nat} (read : numeral 8 s = some n) : decimal s = true := by
  obtain ⟨some, ds, digits, -⟩ := numeral_iff.mp read
  have wider : List.Forall₂ (Digit 10) s ds :=
    digits.imp fun _ _ digit => ⟨digit.value, Nat.lt_trans digit.small (by decide)⟩
  exact (decimal_iff s).mpr ⟨_, numeral_iff.mpr ⟨some, ds, wider, rfl⟩⟩

theorem signed_decimal {s : Text} {n : Nat} (read : magnitude s = some n) (U : Unicode)
    (parsed : (digits U 10 s).isSome = true) : decimal s = true := by
  obtain ⟨r, shape, hexadecimal⟩ | ⟨-, octal⟩ | ⟨-, ten⟩ := magnitude_cases read
  · have plain : PlainChars s := by
      have rest := plain_hexadecimal (hexadecimal_all ((hexadecimal_iff r).mpr ⟨n, hexadecimal⟩))
      obtain rfl | rfl := shape
      · exact List.forall_mem_cons.mpr ⟨by decide, List.forall_mem_cons.mpr ⟨by decide, rest⟩⟩
      · exact List.forall_mem_cons.mpr ⟨by decide, List.forall_mem_cons.mpr ⟨by decide, rest⟩⟩
    rw [digits_plain U plain] at parsed
    exact (decimal_iff s).mpr (Option.isSome_iff_exists.mp parsed)
  · exact decimal_of_octal octal
  · exact (decimal_iff s).mpr ⟨n, ten⟩

theorem alike_decimal {t : Token} (good : decimal t = true) : alike t = true := by
  unfold alike
  split
  · exact absurd (decimal_all good 'x' (by simp)) (by decide)
  · exact absurd (decimal_all good 'X' (by simp)) (by decide)
  · exact absurd (decimal_all good '-' (by simp)) (by decide)
  · exact absurd (decimal_all good '+' (by simp)) (by decide)
  · exact good

theorem alike_of_minus (U : Unicode) {s : Text} {m n : Nat} (size : magnitude s = some m)
    (parsed : parseNumber U ('-' :: s) = some (n : Int)) : alike ('-' :: s) = true := by
  have good : decimal s = true := by
    apply signed_decimal size U
    have parsed : int U 10 ('-' :: s) = some (n : Int) := parsed
    rw [int_minus] at parsed
    obtain ⟨k, known, -⟩ := Option.map_eq_some_iff.mp parsed
    rw [known]
    rfl
  rw [parseNumber_minus U (plain_decimal good)] at parsed
  obtain ⟨k, ten, same⟩ := Option.map_eq_some_iff.mp parsed
  -- A negated number is a natural one only at zero.
  obtain rfl : k = 0 := by omega
  obtain ⟨nonempty, none⟩ := (numeral_zero (by decide) s).mp ten
  show (!s.isEmpty && zeros s) = true
  rw [none, List.isEmpty_eq_false_iff.mpr nonempty]
  rfl

theorem alike_of_plus (U : Unicode) {s : Text} {n : Nat} (size : magnitude s = some n)
    (parsed : parseNumber U ('+' :: s) = some (n : Int)) : alike ('+' :: s) = true := by
  have good : decimal s = true := by
    apply signed_decimal size U
    have parsed : (digits U 10 (dropPrefix 10 s)).map Int.ofNat = some (n : Int) := parsed
    rw [dropPrefix_ten] at parsed
    obtain ⟨k, known, -⟩ := Option.map_eq_some_iff.mp parsed
    rw [known]
    rfl
  rw [parseNumber_plus U (plain_decimal good)] at parsed
  obtain ⟨k, ten, same⟩ := Option.map_eq_some_iff.mp parsed
  obtain rfl : k = n := Int.ofNat.inj same
  show (decimal s && (s.head? != some '0' || s.all (Asm.between '0' '7') && zeros s.dropLast)) =
    true
  rw [good, Bool.true_and]
  by_cases first : s.head? = some '0'
  · -- The same digits in two bases.
    obtain ⟨rest, rfl⟩ := List.head?_eq_some_iff.mp first
    rw [magnitude_octal good] at size
    rw [((octal_iff _).mp ⟨k, size⟩).2, (octal_decimal size).mp ten]
    simp
  · rw [bne_iff_ne.mpr first]
    rfl

theorem alike_of_reads (U : Unicode) {t : Token} {n : Nat} (read : strtoul t = some n)
    (parsed : parseNumber U t = some (n : Int)) : alike t = true := by
  unfold strtoul at read
  split at read
  · obtain ⟨m, size, -⟩ := Option.bind_eq_some_iff.mp read
    exact alike_of_minus U size parsed
  · obtain ⟨m, size, bounded⟩ := Option.bind_eq_some_iff.mp read
    obtain rfl : m = n := by
      split at bounded
      · cases bounded
      · exact Option.some.inj bounded
    exact alike_of_plus U size parsed
  · -- Without a sign it is enough that the assembler reads it.
    rename_i notMinus notPlus
    obtain ⟨m, size, -⟩ := Option.bind_eq_some_iff.mp read
    obtain ⟨r, rfl | rfl, sixteen⟩ | ⟨-, octal⟩ | ⟨-, ten⟩ := magnitude_cases size
    · exact (hexadecimal_iff r).mpr ⟨m, sixteen⟩
    · exact (hexadecimal_iff r).mpr ⟨m, sixteen⟩
    · exact alike_decimal (decimal_of_octal octal)
    · exact alike_decimal ((decimal_iff t).mpr ⟨m, ten⟩)

theorem number_alike (U : Unicode) (t : Token) {n : Nat} (small : n ≤ 0xffff) :
    (strtoul (encode t) = some n → (parseNumber U t = some (n : Int) ↔ alike t = true)) ∧
      (parseNumber U t = some (n : Int) → (strtoul (encode t) = some n ↔ alike t = true)) := by
  have same (good : alike t = true) :
      strtoul (encode t) = some n ↔ parseNumber U t = some (n : Int) := by
    rw [encode_ascii fun c here => (alike_plain good c here).1]
    exact alike_reads U good small
  have both (read : strtoul (encode t) = some n) (parsed : parseNumber U t = some (n : Int)) :
      alike t = true := by
    have ascii := ascii_of_encode (Asm.strtoul_ascii read)
    rw [encode_ascii ascii] at read
    exact alike_of_reads U read parsed
  constructor
  · intro read
    exact ⟨both read, fun good => (same good).mp read⟩
  · intro parsed
    exact ⟨fun read => both read parsed, fun good => (same good).mpr parsed⟩

theorem folds_operands {U : Unicode} {free : Nat → Bool} {s t : Statement} {total : Nat}
    (folded : folds U free s t = some total) {a b c d : Token}
    (first : twoOperands s = some (a, b)) (second : twoOperands t = some (c, d)) :
    ∃ m n, parseNumber U b = some m ∧ parseNumber U d = some n ∧ total = ((m + n) % 256).toNat := by
  unfold folds at folded
  rw [first, second] at folded
  dsimp only at folded
  split at folded
  · split at folded
    · split at folded
      · rename_i m n left right
        exact ⟨m, n, left, right, (Option.some.inj folded).symm⟩
      · cases folded
    · cases folded
  · cases folded

/-- The optimizer and the assembler read a number alike exactly where it is written in one of
these ways; there a folded sum is that of the numbers the assembler reads. -/
theorem numbers_alike (U : Unicode) :
    (∀ (t : Token) (n : Nat), n ≤ 0xffff →
      (strtoul (encode t) = some n → (parseNumber U t = some (n : Int) ↔ alike t = true)) ∧
        (parseNumber U t = some (n : Int) → (strtoul (encode t) = some n ↔ alike t = true))) ∧
      ∀ (free : Nat → Bool) (s t : Statement) (a b c d : Token) (total m n : Nat),
        folds U free s t = some total → twoOperands s = some (a, b) → twoOperands t = some (c, d) →
        alike b = true → alike d = true → m ≤ 0xffff → n ≤ 0xffff →
        strtoul (encode b) = some m → strtoul (encode d) = some n → total = (m + n) % 256 := by
  refine ⟨fun t n small => number_alike U t small, ?_⟩
  intro free s t a b c d total m n folded first second left right small small' read read'
  obtain ⟨m', n', parsed, parsed', rfl⟩ := folds_operands folded first second
  rw [((number_alike U b small).1 read).mpr left] at parsed
  rw [((number_alike U d small').1 read').mpr right] at parsed'
  cases parsed
  cases parsed'
  omega

/-- Eight for the assembler, ten for the optimizer. -/
theorem numbers_alike_octal :
    ¬ (strtoul (encode "+010".toList) = some 8 → parseNumber ascii "+010".toList = some 8) := by
  decide

end ChipEight.Opt
