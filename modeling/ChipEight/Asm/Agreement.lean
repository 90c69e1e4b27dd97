import ChipEight.Asm.Passes
import Mathlib.Tactic.Ring

/-! The two passes of the assembler agree.

The first pass reads an undefined name as zero, the second one as its address. The
size of a line does not depend on the difference: only `.ORG` looks at a value, and
there zero is an error.
-/

set_option autoImplicit false

namespace ChipEight.Asm

/-! ## Loops over lines -/

/-- The lines a list of `fgets` results consists of. -/
def Reads (texts : List Text) (lines : List Line) : Prop :=
  List.Forall₂ (fun text l => readLine text = .ok l) texts lines

section
variable {S : Type} {step : S → Line → Except Problem S}

theorem eachLine_ok {n : Nat} {st st' : S} {texts : List Text} :
    eachLine step n st texts = .ok st' ↔
      ∃ lines, Reads texts lines ∧ lines.foldlM step st = .ok st' := by
  induction texts generalizing n st with
  | nil =>
    constructor
    · intro same
      cases same
      exact ⟨[], .nil, rfl⟩
    · rintro ⟨lines, read, folded⟩
      cases read
      cases folded
      rfl
  | cons text rest ih =>
    constructor
    · intro looped
      unfold eachLine at looped
      split at looped
      · cases looped
      · rename_i l read
        split at looped
        · cases looped
        · rename_i st'' stepped
          obtain ⟨lines, reads, folded⟩ := ih.mp looped
          refine ⟨l :: lines, .cons read reads, ?_⟩
          rw [List.foldlM_cons, stepped]
          exact folded
    · rintro ⟨lines, reads, folded⟩
      cases reads with
      | @cons _ l _ lines read reads =>
        rw [List.foldlM_cons] at folded
        unfold eachLine
        rw [read]
        cases stepped : step st l with
        | error p =>
          rw [stepped] at folded
          cases folded
        | ok st'' =>
          rw [stepped] at folded
          dsimp only
          rw [stepped]
          exact ih.mpr ⟨lines, reads, folded⟩

theorem reads_unique {texts : List Text} {lines lines' : List Line} (reads : Reads texts lines)
    (reads' : Reads texts lines') : lines = lines' := by
  induction reads generalizing lines' with
  | nil =>
    cases reads'
    rfl
  | cons read _ ih =>
    cases reads' with
    | cons read' rest =>
      rw [ih rest, Except.ok.inj (read.symm.trans read')]

theorem foldlM_split {st st' : S} {before after : List Line} {l : Line}
    (folded : (before ++ l :: after).foldlM step st = .ok st') :
    ∃ st₁ st₂, before.foldlM step st = .ok st₁ ∧ step st₁ l = .ok st₂ ∧
      after.foldlM step st₂ = .ok st' := by
  rw [List.foldlM_append] at folded
  cases first : before.foldlM step st with
  | error p =>
    rw [first] at folded
    cases folded
  | ok st₁ =>
    rw [first] at folded
    cases second : step st₁ l with
    | error p =>
      rw [show (Except.ok st₁ >>= (l :: after).foldlM step) = (l :: after).foldlM step st₁ from rfl,
        List.foldlM_cons, second] at folded
      cases folded
    | ok st₂ =>
      rw [show (Except.ok st₁ >>= (l :: after).foldlM step) = (l :: after).foldlM step st₁ from rfl,
        List.foldlM_cons, second] at folded
      exact ⟨st₁, st₂, rfl, second, folded⟩

end

/-! ## Symbols -/

/-- The symbols of `later` begin with those of `earlier`. -/
def Extends (later earlier : List Symbol) : Prop := ∃ more, later = earlier ++ more

theorem Extends.refl (symbols : List Symbol) : Extends symbols symbols :=
  ⟨[], (List.append_nil symbols).symm⟩

theorem Extends.trans {s s' s'' : List Symbol} (first : Extends s' s) (second : Extends s'' s') :
    Extends s'' s := by
  obtain ⟨more, rfl⟩ := first
  obtain ⟨more', rfl⟩ := second
  exact ⟨more ++ more', List.append_assoc _ _ _⟩

theorem Extends.lookup {later earlier : List Symbol} (extends' : Extends later earlier)
    {name : Token} {symbol : Symbol} (found : lookup earlier name = some symbol) :
    lookup later name = some symbol := by
  obtain ⟨more, rfl⟩ := extends'
  unfold Asm.lookup at found ⊢
  rw [List.find?_append, found]
  rfl

theorem define_ok {symbols symbols' : List Symbol} {name : Token} {n : Nat}
    (defined : define symbols name n = .ok symbols') :
    isName name = true ∧ lookup symbols name = none ∧ symbols' = symbols ++ [⟨name, n⟩] := by
  unfold define at defined
  split at defined
  · cases defined
  · rename_i valid
    split at defined
    · cases defined
    · rename_i fresh
      split at defined
      · cases defined
      · cases defined
        refine ⟨by simpa using valid, ?_, rfl⟩
        cases found : lookup symbols name with
        | none => rfl
        | some s =>
          rw [found] at fresh
          exact absurd rfl fresh

theorem lookup_defined {symbols symbols' : List Symbol} {name : Token} {n : Nat}
    (defined : define symbols name n = .ok symbols') :
    lookup symbols' name = some ⟨name, n⟩ := by
  obtain ⟨-, fresh, rfl⟩ := define_ok defined
  unfold lookup at fresh ⊢
  rw [List.find?_append, fresh]
  simp

/-- The first character of a name. -/
def isNameStart (c : Char) : Bool := isalpha c || c == '_'

theorem digitValue_nameStart {c : Char} (start : isNameStart c = true) {d : Nat}
    (digit : digitValue c = some d) : 10 ≤ d := by
  unfold digitValue at digit
  split at digit
  · rename_i isDigit
    simp only [isNameStart, isalpha, isupper, islower, between, isdigit, Char.reduceToNat,
      Bool.or_eq_true, Bool.and_eq_true, decide_eq_true_eq, beq_iff_eq] at start isDigit
    obtain (upper | lower) | rfl := start
    · omega
    · omega
    · simp at isDigit
  · split at digit
    · cases digit
      exact Nat.le_add_left 10 _
    · split at digit
      · cases digit
        exact Nat.le_add_left 10 _
      · cases digit

theorem numeral_nameStart {c : Char} (start : isNameStart c = true) (cs : Text) :
    numeral 10 (c :: cs) = none := by
  unfold numeral numeralFrom
  rw [List.isEmpty_cons]
  cases digit : digitValue c with
  | none => rfl
  | some d =>
    have large := digitValue_nameStart start digit
    simp [Nat.not_lt.mpr large]

theorem strtoul_nameStart {c : Char} (start : isNameStart c = true) (cs : Text) :
    strtoul (c :: cs) = none := by
  have none := numeral_nameStart start cs
  have apart (d : Char) (other : isNameStart d = false) : c ≠ d := by
    rintro rfl
    rw [start] at other
    cases other
  have whole : magnitude (c :: cs) = numeral 10 (c :: cs) := by
    unfold magnitude
    split
    · rename_i same
      exact absurd (List.cons.inj same).1 (apart '0' rfl)
    · rename_i same
      exact absurd (List.cons.inj same).1 (apart '0' rfl)
    · rename_i same
      exact absurd (List.cons.inj same).1 (apart '0' rfl)
    · rfl
  unfold strtoul
  split
  · rename_i same
    exact absurd (List.cons.inj same).1 (apart '-' rfl)
  · rename_i same
    exact absurd (List.cons.inj same).1 (apart '+' rfl)
  · rw [whole, none]
    rfl

theorem strtoul_name {name : Token} (valid : isName name = true) : strtoul name = none := by
  cases name with
  | nil => cases valid
  | cons c cs => exact strtoul_nameStart (Bool.and_eq_true_iff.mp valid).1 cs

theorem value_label {symbols : List Symbol} {name : Token} {symbol : Symbol} (resolve : Bool)
    (valid : isName name = true) (found : lookup symbols name = some symbol) :
    value symbols resolve name = .ok symbol.value := by
  unfold value
  rw [strtoul_name valid]
  dsimp only
  rw [found]

theorem value_extends {earlier later : List Symbol} (extends' : Extends later earlier)
    {s : Token} {n : Nat} (read : value earlier false s = .ok n) (positive : 0 < n) :
    value later true s = .ok n := by
  unfold value at read ⊢
  cases number : strtoul s with
  | some m =>
    rw [number] at read
    exact read
  | none =>
    rw [number] at read
    dsimp only at read ⊢
    cases found : lookup earlier s with
    | none =>
      rw [found] at read
      cases read
      exact absurd positive (Nat.lt_irrefl 0)
    | some symbol =>
      rw [found] at read
      rw [extends'.lookup found]
      exact read

/-! ## Sizes -/

theorem bind_ok {ε α β : Type} {x : Except ε α} {f : α → Except ε β} {b : β} :
    (x >>= f) = .ok b ↔ ∃ a, x = .ok a ∧ f a = .ok b := by
  cases x with
  | error p =>
    constructor
    · intro same
      cases same
    · rintro ⟨_, same, -⟩
      cases same
  | ok a =>
    constructor
    · intro same
      exact ⟨a, rfl, same⟩
    · rintro ⟨_, same, result⟩
      cases same
      exact result

theorem range_ok {n max : Nat} {problem : Nat → Problem} :
    range n max problem = .ok () ↔ n ≤ max := by
  unfold range
  split
  · rename_i large
    constructor
    · intro same
      cases same
    · intro small
      omega
  · rename_i small
    exact ⟨fun _ => Nat.not_lt.mp small, fun _ => rfl⟩

theorem dataBytes_ok {read : Reader} {max : Nat} {problem : Nat → Problem}
    {emit : Nat → List Byte} {args : List Token} {out : List Byte} :
    dataBytes read max problem emit args = .ok out ↔
      ∃ vs, List.Forall₂ (fun t v => read t = .ok v ∧ v ≤ max) args vs ∧
        out = (vs.map emit).flatten := by
  induction args generalizing out with
  | nil =>
    constructor
    · intro same
      cases same
      exact ⟨[], .nil, rfl⟩
    · rintro ⟨vs, each, rfl⟩
      cases each
      rfl
  | cons t ts ih =>
    unfold dataBytes
    constructor
    · intro emitted
      obtain ⟨v, here, emitted⟩ := bind_ok.mp emitted
      obtain ⟨_, small, emitted⟩ := bind_ok.mp emitted
      obtain ⟨rest, others, same⟩ := bind_ok.mp emitted
      obtain ⟨vs, each, rfl⟩ := ih.mp others
      cases same
      exact ⟨v :: vs, .cons ⟨here, range_ok.mp small⟩ each, rfl⟩
    · rintro ⟨vs, each, rfl⟩
      cases each with
      | @cons _ v _ vs here each =>
        rw [here.1]
        show (range v max problem >>= fun _ => _) = _
        rw [range_ok.mpr here.2]
        show (dataBytes read max problem emit ts >>= fun _ => _) = _
        rw [ih.mpr ⟨vs, each, rfl⟩]
        rfl

theorem flatten_length {emit : Nat → List Byte} {k : Nat} (each : ∀ v, (emit v).length = k)
    (vs : List Nat) : ((vs.map emit).flatten).length = k * vs.length := by
  induction vs with
  | nil => rfl
  | cons v vs ih =>
    rw [List.map_cons, List.flatten_cons, List.length_append, each, ih, List.length_cons]
    ring

theorem dataBytes_length {read : Reader} {max : Nat} {problem : Nat → Problem}
    {emit : Nat → List Byte} {k : Nat} (each : ∀ v, (emit v).length = k) {args : List Token}
    {out : List Byte} (emitted : dataBytes read max problem emit args = .ok out) :
    out.length = k * args.length := by
  obtain ⟨vs, reads, rfl⟩ := dataBytes_ok.mp emitted
  rw [flatten_length each, reads.length_eq]

theorem byteOf_length (v : Nat) : (byteOf v).length = 1 := rfl
theorem wordOf_length (v : Nat) : (wordOf v).length = 2 := rfl

/-- The size of a line without `.ORG`, from its words alone. -/
def plainSize : List Token → Nat
  | [] => 0
  | op :: args =>
    if op == dirByte then args.length else if op == dirWord then 2 * args.length else 2

theorem plainSize_cons (op : Token) (args : List Token) :
    plainSize (op :: args) =
      if op == dirByte then args.length else if op == dirWord then 2 * args.length else 2 := rfl

theorem lineSize_plain {read : Reader} {pc size : Nat} {ts : List Token} {out : List Byte}
    (plain : ts.head? ≠ some dirOrg) (sized : lineSize read pc ts = .ok (size, out)) :
    out.length = size ∧ size = plainSize ts := by
  cases ts with
  | nil =>
    cases sized
    exact ⟨rfl, rfl⟩
  | cons op args =>
    have other : (op == dirOrg) = false := by
      apply beq_eq_false_iff_ne.mpr
      rintro rfl
      exact plain rfl
    unfold lineSize at sized
    rw [plainSize_cons]
    simp only [other, Bool.false_eq_true, if_false] at sized
    split at sized
    · rename_i isByte
      rw [if_pos isByte]
      split at sized
      · cases sized
      · obtain ⟨bytes, emitted, same⟩ := bind_ok.mp sized
        cases same
        have length := dataBytes_length byteOf_length emitted
        omega
    · rename_i notByte
      rw [if_neg notByte]
      split at sized
      · rename_i isWord
        rw [if_pos isWord]
        split at sized
        · cases sized
        · obtain ⟨bytes, emitted, same⟩ := bind_ok.mp sized
          cases same
          exact ⟨dataBytes_length wordOf_length emitted, rfl⟩
      · rename_i notWord
        rw [if_neg notWord]
        obtain ⟨w, encoded, same⟩ := bind_ok.mp sized
        cases same
        exact ⟨rfl, rfl⟩

theorem lineSize_org {read : Reader} {pc size : Nat} {ts : List Token} {out : List Byte}
    (org : ts.head? = some dirOrg) (sized : lineSize read pc ts = .ok (size, out)) :
    ∃ a p, ts = [dirOrg, a] ∧ read a = .ok p ∧ 0x200 ≤ p ∧ pc ≤ p ∧ p < memorySize ∧
      size = p - pc := by
  cases ts with
  | nil => cases org
  | cons op args =>
    cases org
    unfold lineSize at sized
    simp only [beq_self_eq_true, if_true] at sized
    split at sized
    · rename_i a
      obtain ⟨p, here, sized⟩ := bind_ok.mp sized
      split at sized
      · cases sized
      · rename_i inside
        split at sized
        · cases sized
        · rename_i forwards
          cases sized
          simp only [Bool.or_eq_true, decide_eq_true_eq, not_or, Nat.not_lt, Nat.not_le] at inside
          exact ⟨a, p, rfl, here, inside.1, Nat.not_lt.mp forwards, inside.2, rfl⟩
    · cases sized

theorem lineSize_agrees {earlier later : List Symbol} (extends' : Extends later earlier)
    {pc size size' : Nat} {ts : List Token} {out out' : List Byte}
    (first : lineSize (value earlier false) pc ts = .ok (size, out))
    (second : lineSize (value later true) pc ts = .ok (size', out')) : size' = size := by
  by_cases org : ts.head? = some dirOrg
  · obtain ⟨a, p, rfl, here, above, -, -, rfl⟩ := lineSize_org org first
    obtain ⟨a', p', same, there, -, -, -, rfl⟩ := lineSize_org org second
    cases same
    have read := value_extends extends' here (by omega)
    rw [there] at read
    cases read
    rfl
  · rw [(lineSize_plain org first).2, (lineSize_plain org second).2]

/-! ## Lines -/

theorem layoutLine_ok {st st' : Layout} {l : Line} (laid : layoutLine st l = .ok st') :
    defineLabel st l.label = .ok st'.symbols ∧ st'.pc ≤ memorySize ∧
      ∃ size out, lineSize (value st'.symbols false) st.pc l.statement = .ok (size, out) ∧
        st'.pc = st.pc + size := by
  unfold layoutLine at laid
  obtain ⟨symbols, defined, laid⟩ := bind_ok.mp laid
  obtain ⟨⟨size, out⟩, sized, laid⟩ := bind_ok.mp laid
  dsimp only at laid
  split at laid
  · cases laid
  · rename_i fits
    cases laid
    exact ⟨defined, Nat.not_lt.mp fits, size, out, sized, rfl⟩

theorem layoutLine_extends {st st' : Layout} {l : Line} (laid : layoutLine st l = .ok st') :
    Extends st'.symbols st.symbols := by
  have defined := (layoutLine_ok laid).1
  unfold defineLabel at defined
  split at defined
  · exact ⟨_, (define_ok defined).2.2⟩
  · rw [← Except.ok.inj defined]
    exact Extends.refl _

theorem layout_extends {st st' : Layout} {lines : List Line}
    (laid : lines.foldlM layoutLine st = .ok st') : Extends st'.symbols st.symbols := by
  induction lines generalizing st with
  | nil =>
    cases laid
    exact Extends.refl _
  | cons l rest ih =>
    rw [List.foldlM_cons] at laid
    obtain ⟨st₁, first, laid⟩ := bind_ok.mp laid
    exact (layoutLine_extends first).trans (ih laid)

theorem emitLine_ok {symbols : List Symbol} {o o' : Output} {l : Line}
    (emitted : emitLine symbols o l = .ok o') :
    ∃ size out, lineSize (value symbols true) o.pc l.statement = .ok (size, out) ∧
      o'.pc = o.pc + size ∧
      o'.bytes = o.bytes ++
        if l.statement.head? == some dirOrg then List.replicate size 0#8 else out := by
  unfold emitLine at emitted
  obtain ⟨⟨size, out⟩, sized, emitted⟩ := bind_ok.mp emitted
  cases emitted
  exact ⟨size, out, sized, rfl, rfl⟩

theorem emit_prefix {symbols : List Symbol} {o o' : Output} {lines : List Line}
    (emitted : lines.foldlM (emitLine symbols) o = .ok o') :
    ∃ rest, o'.bytes = o.bytes ++ rest := by
  induction lines generalizing o with
  | nil =>
    cases emitted
    exact ⟨[], (List.append_nil _).symm⟩
  | cons l rest ih =>
    rw [List.foldlM_cons] at emitted
    obtain ⟨o₁, emitted₁, emitted⟩ := bind_ok.mp emitted
    obtain ⟨size, out, -, -, bytes⟩ := emitLine_ok emitted₁
    obtain ⟨more, split⟩ := ih emitted
    rw [split, bytes, List.append_assoc]
    exact ⟨_, rfl⟩

/-- The second pass is where the first one was, and has written that much. -/
structure InStep (st : Layout) (o : Output) : Prop where
  pc : o.pc = st.pc
  written : 0x200 + o.bytes.length = st.pc

theorem emitLine_length {symbols : List Symbol} {o o' : Output} {l : Line}
    (emitted : emitLine symbols o l = .ok o') :
    o'.bytes.length + o.pc = o.bytes.length + o'.pc := by
  obtain ⟨size, out, sized, pc, bytes⟩ := emitLine_ok emitted
  rw [bytes, pc, List.length_append]
  by_cases org : l.statement.head? = some dirOrg
  · rw [if_pos (beq_iff_eq.mpr org), List.length_replicate]
    omega
  · rw [if_neg (fun same => org (beq_iff_eq.mp same)), (lineSize_plain org sized).1]
    omega

theorem line_inStep {st st' : Layout} {o o' : Output} {l : Line} {symbols : List Symbol}
    (inStep : InStep st o) (laid : layoutLine st l = .ok st') (final : Extends symbols st'.symbols)
    (emitted : emitLine symbols o l = .ok o') : InStep st' o' := by
  obtain ⟨-, -, size, out, first, pc⟩ := layoutLine_ok laid
  obtain ⟨size', out', second, pc', -⟩ := emitLine_ok emitted
  have length := emitLine_length emitted
  rw [inStep.pc] at second pc'
  have same := lineSize_agrees final first second
  have written := inStep.written
  have before := inStep.pc
  constructor <;> omega

theorem lines_inStep {st st' : Layout} {o o' : Output} {lines : List Line}
    {symbols : List Symbol} (inStep : InStep st o) (laid : lines.foldlM layoutLine st = .ok st')
    (final : Extends symbols st'.symbols)
    (emitted : lines.foldlM (emitLine symbols) o = .ok o') : InStep st' o' := by
  induction lines generalizing st o with
  | nil =>
    cases laid
    cases emitted
    exact inStep
  | cons l rest ih =>
    rw [List.foldlM_cons] at laid emitted
    obtain ⟨st₁, laid₁, laid⟩ := bind_ok.mp laid
    obtain ⟨o₁, emitted₁, emitted⟩ := bind_ok.mp emitted
    have known := (layout_extends laid).trans final
    exact ih (line_inStep inStep laid₁ known emitted₁) laid emitted

theorem layout_bound {st st' : Layout} {lines : List Line} (fits : st.pc ≤ memorySize)
    (laid : lines.foldlM layoutLine st = .ok st') : st'.pc ≤ memorySize := by
  induction lines generalizing st with
  | nil =>
    cases laid
    exact fits
  | cons l rest ih =>
    rw [List.foldlM_cons] at laid
    obtain ⟨st₁, laid₁, laid⟩ := bind_ok.mp laid
    obtain ⟨-, fits₁, -⟩ := layoutLine_ok laid₁
    exact ih fits₁ laid

/-! ## Labels -/

theorem InStep.start : InStep .start .start := ⟨rfl, rfl⟩

theorem label_address {st st' : Layout} {o : Output} {l : Line} {name : Token}
    (inStep : InStep st o) (laid : layoutLine st l = .ok st') (label : l.label = some name) :
    isName name = true ∧ lookup st'.symbols name = some ⟨name, 0x200 + o.bytes.length⟩ := by
  have defined := (layoutLine_ok laid).1
  rw [label] at defined
  rw [inStep.written]
  exact ⟨(define_ok defined).1, lookup_defined defined⟩

/-- Every symbol is a name, and its value an address. -/
def Addresses (symbols : List Symbol) : Prop :=
  ∀ symbol ∈ symbols, isName symbol.name = true ∧ 0x200 ≤ symbol.value

theorem layoutLine_addresses {st st' : Layout} {l : Line} (above : 0x200 ≤ st.pc)
    (known : Addresses st.symbols) (laid : layoutLine st l = .ok st') :
    Addresses st'.symbols ∧ 0x200 ≤ st'.pc := by
  obtain ⟨defined, -, size, out, -, pc⟩ := layoutLine_ok laid
  constructor
  · unfold defineLabel at defined
    split at defined
    · obtain ⟨valid, -, same⟩ := define_ok defined
      rw [same]
      intro symbol mem
      rcases List.mem_append.mp mem with old | new
      · exact known symbol old
      · rw [List.mem_singleton.mp new]
        exact ⟨valid, above⟩
    · rw [← Except.ok.inj defined]
      exact known
  · omega

theorem layout_addresses {st st' : Layout} {lines : List Line} (above : 0x200 ≤ st.pc)
    (known : Addresses st.symbols) (laid : lines.foldlM layoutLine st = .ok st') :
    Addresses st'.symbols := by
  induction lines generalizing st with
  | nil =>
    cases laid
    exact known
  | cons l rest ih =>
    rw [List.foldlM_cons] at laid
    obtain ⟨st₁, laid₁, laid⟩ := bind_ok.mp laid
    have next := layoutLine_addresses above known laid₁
    exact ih next.2 next.1 laid

/-! ## Operands -/

/-- The instructions that take an address, and the word it is put into. -/
def addressForms : List (List Token × Word) :=
  [([Mnemonic.jp.text], 0x1000#16), ([Mnemonic.jp.text, wordV0], 0xb000#16),
    ([Mnemonic.call.text], 0x2000#16), ([Mnemonic.ld.text, wordI], 0xa000#16)]

/-- A line with an operand `name` went from `o` to `o'` with `n` in its place. -/
structure Encodes (name : Token) (n : Nat) (ts : List Token) (o o' : Output) : Prop where
  /-- More than a byte, so that no byte or nibble operand can name it. -/
  large : 0x200 ≤ n
  instruction : ∀ form ∈ addressForms, ts = form.1 ++ [name] →
    o'.bytes = o.bytes ++ wordBytes (form.2 ||| BitVec.ofNat 16 n)
  word : ∀ before after, ts = dirWord :: (before ++ name :: after) →
    ∃ front back, o'.bytes = o.bytes ++ front ++ wordOf n ++ back ∧
      front.length = 2 * before.length
  org : ts = [dirOrg, name] →
    o'.pc = n ∧ o'.bytes = o.bytes ++ List.replicate (n - o.pc) 0#8

theorem address_label {read : Reader} {name : Token} {n : Nat} {w : Word}
    (label : read name = .ok n) (ok : address read name = .ok w) : w = BitVec.ofNat 16 n := by
  unfold address immediate at ok
  rw [label] at ok
  obtain ⟨z, same, ok⟩ := bind_ok.mp ok
  cases same
  obtain ⟨_, -, ok⟩ := bind_ok.mp ok
  cases ok
  rfl

theorem instruction_label {read : Reader} {name : Token} {n : Nat} {w : Word}
    (label : read name = .ok n) {form : List Token × Word} (mem : form ∈ addressForms)
    {op : Token} {args : List Token} (same : op :: args = form.1 ++ [name])
    (encoded : instruction read op args = .ok w) : w = form.2 ||| BitVec.ofNat 16 n := by
  have into {c w : Word} (ok : (address read name >>= fun z => Except.ok (c ||| z)) = .ok w) :
      w = c ||| BitVec.ofNat 16 n := by
    obtain ⟨z, here, ok⟩ := bind_ok.mp ok
    rw [← Except.ok.inj ok, address_label label here]
  simp only [addressForms, List.mem_cons, List.not_mem_nil, or_false] at mem
  obtain rfl | rfl | rfl | rfl := mem <;> cases same <;> exact into encoded

theorem dataBytes_label {read : Reader} {max : Nat} {problem : Nat → Problem}
    {emit : Nat → List Byte} {k : Nat} (each : ∀ v, (emit v).length = k) {name : Token} {n : Nat}
    (label : read name = .ok n) {before after : List Token} {out : List Byte}
    (emitted : dataBytes read max problem emit (before ++ name :: after) = .ok out) :
    ∃ front back, out = front ++ emit n ++ back ∧ front.length = k * before.length := by
  induction before generalizing out with
  | nil =>
    obtain ⟨vs, reads, rfl⟩ := dataBytes_ok.mp emitted
    cases reads with
    | @cons _ v _ vs here _ =>
      rw [label] at here
      rw [← Except.ok.inj here.1]
      exact ⟨[], (vs.map emit).flatten, rfl, rfl⟩
  | cons t ts ih =>
    obtain ⟨v, -, emitted⟩ := bind_ok.mp emitted
    obtain ⟨_, -, emitted⟩ := bind_ok.mp emitted
    obtain ⟨rest, others, same⟩ := bind_ok.mp emitted
    obtain ⟨front, back, split, length⟩ := ih others
    refine ⟨emit v ++ front, back, ?_, ?_⟩
    · rw [← Except.ok.inj same, split]
      simp only [List.append_assoc]
    · rw [List.length_append, each, length, List.length_cons]
      ring

theorem encodes_label {symbols : List Symbol} {symbol : Symbol} {o o' : Output} {l : Line}
    (addresses : Addresses symbols) (found : lookup symbols symbol.name = some symbol)
    (emitted : emitLine symbols o l = .ok o') :
    Encodes symbol.name symbol.value l.statement o o' := by
  obtain ⟨valid, large⟩ := addresses symbol (List.mem_of_find?_eq_some found)
  have label := value_label true valid found
  obtain ⟨size, out, sized, pc, bytes⟩ := emitLine_ok emitted
  constructor
  · exact large
  -- The three places of a label: an address operand, a word of data, and `.ORG`.
  · intro form mem same
    have encoded (op : Token) (args : List Token) (shape : l.statement = op :: args)
        (plain : op ≠ dirOrg ∧ op ≠ dirByte ∧ op ≠ dirWord) :
        o'.bytes = o.bytes ++ wordBytes (form.2 ||| BitVec.ofNat 16 symbol.value) := by
      rw [shape] at sized bytes same
      unfold lineSize at sized
      simp only [beq_eq_false_iff_ne.mpr plain.1, beq_eq_false_iff_ne.mpr plain.2.1,
        beq_eq_false_iff_ne.mpr plain.2.2, Bool.false_eq_true, if_false] at sized
      obtain ⟨w, encoded, same'⟩ := bind_ok.mp sized
      cases same'
      rw [bytes, if_neg, instruction_label label mem same encoded]
      intro org
      exact plain.1 (Option.some.inj (beq_iff_eq.mp org))
    simp only [addressForms, List.mem_cons, List.not_mem_nil, or_false] at mem
    obtain rfl | rfl | rfl | rfl := mem <;> exact encoded _ _ same (by decide)
  · intro before after same
    rw [same] at sized bytes
    have filled : (before ++ symbol.name :: after).isEmpty = false := by simp
    unfold lineSize at sized
    simp only [show (dirWord == dirOrg) = false by decide, show (dirWord == dirByte) = false by decide,
      beq_self_eq_true, filled, Bool.false_eq_true, if_false, if_true] at sized
    obtain ⟨out', data, same'⟩ := bind_ok.mp sized
    cases same'
    obtain ⟨front, back, rfl, length⟩ := dataBytes_label wordOf_length label data
    refine ⟨front, back, ?_, length⟩
    rw [bytes, if_neg (by simp [dirWord, dirOrg])]
    simp only [List.append_assoc]
  · intro same
    obtain ⟨a, p, shape, here, -, above, -, rfl⟩ := lineSize_org (by rw [same]; rfl) sized
    rw [same] at shape bytes
    cases shape
    rw [label] at here
    cases here
    constructor
    · omega
    · rw [bytes, if_pos (by simp)]

/-! ## Files -/

/-- The passes of an accepted file agree about every line and every label. -/
theorem passes_agree {file : Text} {out : List Byte} (accepted : assemble file = .ok out) :
    ∃ layout, firstPass file = .ok layout ∧ 0x200 + out.length = layout.pc ∧ out.length ≤ 0xe00 ∧
      ∀ before l after, Reads (fgets file) (before ++ l :: after) →
        ∃ o o' rest, before.foldlM (emitLine layout.symbols) .start = .ok o ∧
          emitLine layout.symbols o l = .ok o' ∧ out = o'.bytes ++ rest ∧
          (∀ name, l.label = some name →
            lookup layout.symbols name = some ⟨name, 0x200 + o.bytes.length⟩) ∧
          ∀ symbol, lookup layout.symbols symbol.name = some symbol →
            Encodes symbol.name symbol.value l.statement o o' := by
  obtain ⟨layout, first, accepted⟩ := bind_ok.mp accepted
  obtain ⟨output, second, same⟩ := bind_ok.mp accepted
  cases same
  obtain ⟨lines, reads, laid⟩ := eachLine_ok.mp first
  obtain ⟨lines', reads', emitted⟩ := eachLine_ok.mp second
  cases reads_unique reads reads'
  have whole := lines_inStep .start laid (.refl _) emitted
  have fits := layout_bound (by decide) laid
  have addresses := layout_addresses (Nat.le_refl _) (fun _ mem => absurd mem List.not_mem_nil) laid
  have written := whole.written
  refine ⟨layout, first, written, by simp only [memorySize] at fits; omega, ?_⟩
  intro before l after here
  cases reads_unique reads here
  obtain ⟨st₁, st₂, laid₁, laid₂, laid₃⟩ := foldlM_split laid
  obtain ⟨o₁, o₂, emitted₁, emitted₂, emitted₃⟩ := foldlM_split emitted
  have known₂ := layout_extends laid₃
  have known₁ := (layoutLine_extends laid₂).trans known₂
  have inStep := lines_inStep .start laid₁ known₁ emitted₁
  obtain ⟨rest, split⟩ := emit_prefix emitted₃
  refine ⟨o₁, o₂, rest, emitted₁, emitted₂, split, ?_, ?_⟩
  · intro name label
    exact known₂.lookup (label_address inStep laid₂ label).2
  · intro symbol found
    exact encodes_label addresses found emitted₂

/-- A forward reference, padding, and `.ORG` of a label on its own line. -/
theorem passes_agree_forward :
    ∃ layout, firstPass "a: .org a\nJP end\n.org 0x206\nend: .word a".toList = .ok layout ∧
      0x200 + 8 = layout.pc ∧ 8 ≤ 0xe00 := by
  have accepted : assemble "a: .org a\nJP end\n.org 0x206\nend: .word a".toList =
      .ok [0x12#8, 0x06#8, 0#8, 0#8, 0#8, 0#8, 0x02#8, 0x00#8] := by
    decide +kernel
  obtain ⟨layout, first, length, small, -⟩ := passes_agree accepted
  exact ⟨layout, first, length, small⟩

end ChipEight.Asm
