import ChipEight.Asm.Agreement

/-! The stores of the assembler into its fixed arrays.

Each loop of asm.c that writes is followed once more, with the subscripts it writes at. A
run is followed up to its first `fail`. What is stored behind the end of an array is not
part of the model: the first such store is where the model ends to say something.
-/

set_option autoImplicit false

namespace ChipEight.Asm

/-! ## Arrays -/

/-- The fixed arrays; `name` stands for the field of any symbol. -/
inductive Buffer where
  | line
  | copy
  | tokens
  | symbols
  | name
  | bytes
  deriving DecidableEq, Repr

def nameSize : Nat := 128

def Buffer.size : Buffer → Nat
  | .line => maxLine
  | .copy => maxLine
  | .tokens => maxTokens
  | .symbols => maxSymbols
  | .name => nameSize
  | .bytes => maxTokens * 2

structure Store where
  buffer : Buffer
  index : Nat
  deriving DecidableEq, Repr

def Store.Inside (s : Store) : Prop := s.index < s.buffer.size

instance (s : Store) : Decidable s.Inside := inferInstanceAs (Decidable (_ < _))

/-- The first `n` elements. -/
def first (buffer : Buffer) (n : Nat) : List Store := (List.range n).map (Store.mk buffer)

/-- A string of a length and the NUL behind it. -/
def string (buffer : Buffer) (length : Nat) : List Store := first buffer (length + 1)

/-! ## `tokenize` -/

/-- The loop of `tokenize` from a position on, inside a word or between words: a token is
stored where a word begins, and a NUL over what ends it. -/
def tokenStores (buffer : Buffer) (pos count : Nat) (inside : Bool) : Text → List Store
  | [] => []
  | c :: cs =>
    if inside then
      if isBlank c || isComment c then
        ⟨buffer, pos⟩ :: tokenStores buffer (pos + 1) count false cs
      else tokenStores buffer (pos + 1) count true cs
    else if isComment c then []
    else if isBlank c then tokenStores buffer (pos + 1) count false cs
    else if count == maxTokens then []
    else ⟨.tokens, count⟩ :: tokenStores buffer (pos + 1) (count + 1) true cs

/-- `normalize` on every token: each letter of a word is stored. -/
def letterStores (buffer : Buffer) (pos : Nat) (inside : Bool) : Text → List Store
  | [] => []
  | c :: cs =>
    if inside then
      if isBlank c || isComment c then letterStores buffer (pos + 1) false cs
      else ⟨buffer, pos⟩ :: letterStores buffer (pos + 1) true cs
    else if isComment c then []
    else if isBlank c then letterStores buffer (pos + 1) false cs
    else ⟨buffer, pos⟩ :: letterStores buffer (pos + 1) true cs

def tokenizeStores (buffer : Buffer) (line : Text) : List Store :=
  tokenStores buffer 0 0 false (cString line) ++
    if (tokenize line).isSome then letterStores buffer 0 false (cString line) else []

/-! ## The passes -/

/-- `t[0][strlen (t[0]) - 1]`: the end of the first word of a line. -/
def labelEnd (line : Text) (name : Token) : Nat :=
  ((cString line).takeWhile isBlank).length + name.length

/-- `memmove (t, t + 1, --n * sizeof *t)` -/
def moveStores (n : Nat) : List Store := first .tokens (n - 1)

/-- A label: the colon becomes the end of its name, which `define` copies once it has passed
the checks. -/
def labelStores (st : Layout) (text : Text) (count : Nat) (name : Token) : List Store :=
  ⟨.copy, labelEnd text name⟩ ::
    match define st.symbols name st.pc with
    | .error _ => []
    | .ok _ => string .name name.length ++ ⟨.symbols, st.symbols.length⟩ :: moveStores count

/-- A line of the first pass. -/
def layoutStores (st : Layout) (text : Text) : List Store :=
  string .line text.length ++ string .copy (cString text).length ++ tokenizeStores .copy text ++
    match tokenize text with
    | none => []
    | some ts => (splitLabel ts).label.toList.flatMap (labelStores st text ts.length)

section
variable (read : Reader)

/-- The operands of `.BYTE` and `.WORD`, up to one that fails. -/
def dataStores (max width i : Nat) : List Token → List Store
  | [] => []
  | t :: ts =>
    match read t with
    | .error _ => []
    | .ok v =>
      if v > max then []
      else (List.range width).map (fun k => ⟨.bytes, width * i + k⟩) ++
        dataStores max width (i + 1) ts

/-- `line_size` where it has an array for the bytes. -/
def sizeStores : List Token → List Store
  | [] => []
  | op :: args =>
    if op == dirOrg then []
    else if op == dirByte then dataStores read 0xff 1 0 args
    else if op == dirWord then dataStores read 0xffff 2 0 args
    else match instruction read op args with
      | .error _ => []
      | .ok _ => first .bytes 2

end

/-- A line of the second pass. -/
def emitStores (symbols : List Symbol) (text : Text) : List Store :=
  string .line text.length ++ tokenizeStores .line text ++
    match tokenize text with
    | none => []
    | some ts =>
      (if (splitLabel ts).label.isSome then moveStores ts.length else []) ++
        sizeStores (value symbols true) (splitLabel ts).statement

/-- A pass goes on while its lines do not fail. -/
def passStores {S : Type} (stores : S → Text → List Store)
    (step : S → Line → Except Problem S) (st : S) : List Text → List Store
  | [] => []
  | text :: rest =>
    stores st text ++
      match readLine text with
      | .error _ => []
      | .ok l =>
        match step st l with
        | .error _ => []
        | .ok st => passStores stores step st rest

/-- All stores of `main` on the contents of a file. -/
def stores (file : Text) : List Store :=
  passStores layoutStores layoutLine .start (fgets file) ++
    match firstPass file with
    | .error _ => []
    | .ok layout =>
      passStores (fun _ => emitStores layout.symbols) (emitLine layout.symbols) .start (fgets file)

/-- The labels `define` copies: those of the lines before the first that fails, and its own
if it is the statement that fails. -/
def copied (st : Layout) : List Text → List Token
  | [] => []
  | text :: rest =>
    match readLine text with
    | .error _ => []
    | .ok l =>
      (l.label.toList.filter fun name => (define st.symbols name st.pc).isOk) ++
        match layoutLine st l with
        | .error _ => []
        | .ok st => copied st rest

/-- Every store is inside its array, and what is accepted is within the limits. -/
structure Guarded (file : Text) : Prop where
  inside : ∀ s ∈ stores file, s.Inside
  limits : ∀ bytes, assemble file = .ok bytes →
    (∀ text ∈ fgets file, (words [] (cString text)).length ≤ maxTokens) ∧
    ((fgets file).filterMap fun text => (readLine text).toOption.bind Line.label).length ≤
      maxSymbols ∧
    ∀ name ∈ (fgets file).filterMap fun text => (readLine text).toOption.bind Line.label,
      name.length < nameSize

/-! ## Strings -/

theorem fgetsFrom_length {cur file text : Text} (room : cur.length + 2 ≤ maxLine)
    (here : text ∈ fgetsFrom cur file) : text.length + 1 ≤ maxLine := by
  have size : maxLine = 1024 := rfl
  induction file generalizing cur with
  | nil =>
    unfold fgetsFrom at here
    split at here
    · cases here
    · rw [List.mem_singleton.mp here]
      omega
  | cons c cs ih =>
    unfold fgetsFrom at here
    split at here
    · obtain rfl | later := List.mem_cons.mp here
      · rw [List.length_append, List.length_singleton]
        omega
      · exact ih (by rw [List.length_nil]; omega) later
    · rename_i goesOn
      refine ih ?_ here
      rw [List.length_append, List.length_singleton]
      simp only [Bool.or_eq_true, beq_iff_eq, not_or] at goesOn
      omega

theorem fgets_length {file text : Text} (here : text ∈ fgets file) : text.length < maxLine :=
  fgetsFrom_length (by decide) here

theorem cString_length (text : Text) : (cString text).length ≤ text.length :=
  (List.takeWhile_prefix _).length_le

theorem first_inside {buffer : Buffer} {n : Nat} (fits : n ≤ buffer.size) :
    ∀ s ∈ first buffer n, s.Inside := by
  intro s here
  obtain ⟨i, inside, rfl⟩ := List.mem_map.mp here
  exact Nat.lt_of_lt_of_le (List.mem_range.mp inside) fits

theorem string_inside {buffer : Buffer} {n : Nat} :
    (∀ s ∈ string buffer n, s.Inside) ↔ n < buffer.size := by
  constructor
  · intro all
    exact all ⟨buffer, n⟩ (List.mem_map.mpr ⟨n, List.mem_range.mpr (Nat.lt_succ_self n), rfl⟩)
  · exact fun fits => first_inside fits

/-! ## Tokens -/

theorem tokenStores_inside {buffer : Buffer} {pos count : Nat} {inside : Bool} {text : Text}
    (fits : pos + text.length ≤ buffer.size) (few : count ≤ maxTokens) :
    ∀ s ∈ tokenStores buffer pos count inside text, s.Inside := by
  induction text generalizing pos count inside with
  | nil => exact nofun
  | cons c cs ih =>
    rw [List.length_cons] at fits
    have next : pos + 1 + cs.length ≤ buffer.size := by omega
    have here : (⟨buffer, pos⟩ : Store).Inside := by
      show pos < buffer.size
      omega
    unfold tokenStores
    split
    · split
      · exact List.forall_mem_cons.mpr ⟨here, ih next few⟩
      · exact ih next few
    · split
      · exact nofun
      split
      · exact ih next few
      split
      · exact nofun
      · rename_i notFull
        have room : count < maxTokens :=
          Nat.lt_of_le_of_ne few fun full => notFull (beq_iff_eq.mpr full)
        exact List.forall_mem_cons.mpr ⟨room, ih next room⟩

theorem letterStores_inside {buffer : Buffer} {pos : Nat} {inside : Bool} {text : Text}
    (fits : pos + text.length ≤ buffer.size) :
    ∀ s ∈ letterStores buffer pos inside text, s.Inside := by
  induction text generalizing pos inside with
  | nil => exact nofun
  | cons c cs ih =>
    rw [List.length_cons] at fits
    have next : pos + 1 + cs.length ≤ buffer.size := by omega
    have here : (⟨buffer, pos⟩ : Store).Inside := by
      show pos < buffer.size
      omega
    unfold letterStores
    split
    · split
      · exact ih next
      · exact List.forall_mem_cons.mpr ⟨here, ih next⟩
    · split
      · exact nofun
      split
      · exact ih next
      · exact List.forall_mem_cons.mpr ⟨here, ih next⟩

theorem tokenizeStores_inside {buffer : Buffer} {text : Text} (fits : text.length ≤ buffer.size) :
    ∀ s ∈ tokenizeStores buffer text, s.Inside := by
  have short : 0 + (cString text).length ≤ buffer.size := by
    have length := cString_length text
    omega
  rw [tokenizeStores, List.forall_mem_append]
  refine ⟨tokenStores_inside short (Nat.zero_le _), ?_⟩
  split
  · exact letterStores_inside short
  · exact nofun

theorem tokenize_length {text : Text} {ts : List Token} (split : tokenize text = some ts) :
    ts.length ≤ maxTokens ∧ ts.length = (words [] (cString text)).length := by
  unfold tokenize at split
  dsimp only at split
  split at split
  · cases split
  · rename_i few
    cases split
    rw [List.length_map]
    exact ⟨Nat.not_lt.mp few, rfl⟩

theorem words_length {cur : Token} {text : Text} {w : Token} {ws : List Token}
    (read : words cur text = w :: ws) (begun : cur ≠ []) : w.length ≤ cur.length + text.length := by
  induction text generalizing cur with
  | nil =>
    unfold words at read
    split at read
    · cases read
    · cases read
      exact Nat.le_refl _
  | cons c cs ih =>
    have some : cur.isEmpty = false := List.isEmpty_eq_false_iff.mpr begun
    unfold words at read
    rw [some, if_neg Bool.false_ne_true] at read
    split at read
    · cases read
      exact Nat.le_add_right _ _
    · have longer := ih read (by simp)
      rw [List.length_append, List.length_singleton] at longer
      rw [List.length_cons]
      omega

theorem words_first {text : Text} {w : Token} {ws : List Token} (read : words [] text = w :: ws) :
    (text.takeWhile isBlank).length + w.length ≤ text.length := by
  induction text with
  | nil => cases read
  | cons c cs ih =>
    unfold words at read
    rw [List.isEmpty_nil, if_pos rfl] at read
    split at read
    · cases read
    · split at read
      · rename_i blank
        rw [List.takeWhile_cons, if_pos blank, List.length_cons, List.length_cons]
        have rest := ih read
        omega
      · rename_i solid
        have length := words_length read (List.cons_ne_nil c [])
        rw [List.takeWhile_cons, if_neg solid, List.length_nil, List.length_cons]
        rw [List.length_singleton] at length
        omega

theorem labelEnd_inside {text : Text} {ts : List Token} {name : Token}
    (split : tokenize text = some ts) (label : (splitLabel ts).label = some name) :
    labelEnd text name < (cString text).length := by
  unfold tokenize at split
  dsimp only at split
  split at split
  · cases split
  · cases split
    cases read : words [] (cString text) with
    | nil =>
      rw [read] at label
      cases label
    | cons w ws =>
      rw [read, List.map_cons, splitLabel] at label
      split at label
      · rename_i colon
        cases label
        have some : normalize w ≠ [] := by
          intro empty
          rw [empty] at colon
          cases colon
        have length : (normalize w).length = w.length := List.length_map _
        have positive := List.length_pos_iff.mpr some
        have fits := words_first read
        rw [labelEnd, List.length_dropLast, length]
        omega
      · cases label

/-! ## Bytes -/

theorem dataStores_inside {read : Reader} {max width i : Nat} {args : List Token}
    (fits : width * (i + args.length) ≤ Buffer.size .bytes) :
    ∀ s ∈ dataStores read max width i args, s.Inside := by
  induction args generalizing i with
  | nil => exact nofun
  | cons t ts ih =>
    rw [List.length_cons] at fits
    unfold dataStores
    split
    · exact nofun
    split
    · exact nofun
    · rw [List.forall_mem_append]
      constructor
      · intro s here
        obtain ⟨k, inside, rfl⟩ := List.mem_map.mp here
        have small := List.mem_range.mp inside
        have more : width * (i + 1) ≤ width * (i + (ts.length + 1)) :=
          Nat.mul_le_mul_left width (by omega)
        rw [Nat.mul_succ] at more
        show width * i + k < Buffer.size .bytes
        omega
      · exact ih (by rwa [Nat.add_assoc, Nat.add_comm 1])

theorem sizeStores_inside {read : Reader} {ts : List Token} (few : ts.length ≤ maxTokens) :
    ∀ s ∈ sizeStores read ts, s.Inside := by
  have whole : Buffer.size .bytes = maxTokens * 2 := rfl
  cases ts with
  | nil => exact nofun
  | cons op args =>
    rw [List.length_cons] at few
    rw [sizeStores]
    split
    · exact nofun
    split
    · apply dataStores_inside
      omega
    split
    · apply dataStores_inside
      omega
    split
    · exact nofun
    · exact first_inside (by decide)

theorem moveStores_inside {n : Nat} (few : n ≤ maxTokens) : ∀ s ∈ moveStores n, s.Inside := by
  apply first_inside
  show n - 1 ≤ maxTokens
  omega

/-! ## Lines -/

theorem splitLabel_length (ts : List Token) : (splitLabel ts).statement.length ≤ ts.length := by
  cases ts with
  | nil => exact Nat.le_refl _
  | cons t ts =>
    rw [splitLabel]
    split
    · exact Nat.le_succ _
    · exact Nat.le_refl _

theorem emitStores_inside {symbols : List Symbol} {text : Text} (fits : text.length < maxLine) :
    ∀ s ∈ emitStores symbols text, s.Inside := by
  rw [emitStores, List.forall_mem_append, List.forall_mem_append]
  refine ⟨⟨string_inside.mpr fits, tokenizeStores_inside fits.le⟩, ?_⟩
  split
  · exact nofun
  · rename_i ts split
    have few := (tokenize_length split).1
    rw [List.forall_mem_append]
    constructor
    · split
      · exact moveStores_inside few
      · exact nofun
    · exact sizeStores_inside ((splitLabel_length ts).trans few)

theorem define_room {symbols symbols' : List Symbol} {name : Token} {n : Nat}
    (defined : define symbols name n = .ok symbols') (room : symbols.length ≤ maxSymbols) :
    symbols.length < maxSymbols := by
  refine Nat.lt_of_le_of_ne room fun full => ?_
  unfold define at defined
  rw [if_pos (beq_iff_eq.mpr full)] at defined
  split at defined
  · cases defined
  split at defined <;> cases defined

theorem labelStores_inside {st : Layout} {text : Text} {count : Nat} {name : Token}
    (colon : labelEnd text name < maxLine) (few : count ≤ maxTokens)
    (room : st.symbols.length ≤ maxSymbols) :
    (∀ s ∈ labelStores st text count name, s.Inside) ↔
      ((define st.symbols name st.pc).isOk = true → name.length < nameSize) := by
  rw [labelStores, List.forall_mem_cons]
  cases defined : define st.symbols name st.pc with
  | error problem => exact ⟨fun _ => nofun, fun _ => ⟨colon, nofun⟩⟩
  | ok symbols =>
    rw [List.forall_mem_append, string_inside, List.forall_mem_cons]
    constructor
    · exact fun all _ => all.2.1
    · exact fun short => ⟨colon, short rfl, define_room defined room, moveStores_inside few⟩

theorem layoutStores_inside {st : Layout} {text : Text} (fits : text.length < maxLine)
    (room : st.symbols.length ≤ maxSymbols) :
    (∀ s ∈ layoutStores st text, s.Inside) ↔
      ∀ l, readLine text = .ok l → ∀ name, l.label = some name →
        (define st.symbols name st.pc).isOk = true → name.length < nameSize := by
  have short : (cString text).length < maxLine := (cString_length text).trans_lt fits
  have before : ∀ s ∈ string .line text.length ++ string .copy (cString text).length ++
      tokenizeStores .copy text, s.Inside := by
    rw [List.forall_mem_append, List.forall_mem_append]
    exact ⟨⟨string_inside.mpr fits, string_inside.mpr short⟩, tokenizeStores_inside fits.le⟩
  rw [layoutStores, List.forall_mem_append, readLine]
  cases split : tokenize text with
  | none => exact ⟨fun _ l read => (nomatch read), fun _ => ⟨before, nofun⟩⟩
  | some ts =>
    have few := (tokenize_length split).1
    have label {name : Token} (isLabel : (splitLabel ts).label = some name) :=
      @labelStores_inside st text ts.length name ((labelEnd_inside split isLabel).trans short) few
        room
    constructor
    · intro all l read name isLabel
      cases read
      refine (label isLabel).mp fun s here => all.2 s ?_
      dsimp only
      rw [isLabel]
      exact List.mem_flatMap.mpr ⟨name, List.mem_singleton.mpr rfl, here⟩
    · intro all
      refine ⟨before, fun s here => ?_⟩
      obtain ⟨name, among, here⟩ := List.mem_flatMap.mp here
      have isLabel := Option.mem_toList.mp among
      exact (label isLabel).mpr (all _ rfl name isLabel) s here

/-! ## Passes -/

theorem layoutLine_room {st st' : Layout} {l : Line} (room : st.symbols.length ≤ maxSymbols)
    (laid : layoutLine st l = .ok st') : st'.symbols.length ≤ maxSymbols := by
  obtain ⟨defined, -⟩ := layoutLine_ok laid
  unfold defineLabel at defined
  split at defined
  · have less := define_room defined room
    obtain ⟨-, -, grown⟩ := define_ok defined
    rw [grown, List.length_append, List.length_singleton]
    exact less
  · rw [← Except.ok.inj defined]
    exact room

theorem firstPass_inside {st : Layout} {texts : List Text}
    (fits : ∀ text ∈ texts, text.length < maxLine) (room : st.symbols.length ≤ maxSymbols) :
    (∀ s ∈ passStores layoutStores layoutLine st texts, s.Inside) ↔
      ∀ name ∈ copied st texts, name.length < nameSize := by
  induction texts generalizing st with
  | nil => exact ⟨fun _ => nofun, fun _ => nofun⟩
  | cons text rest ih =>
    have line := layoutStores_inside (fits text List.mem_cons_self) room
    rw [passStores, copied, List.forall_mem_append, line]
    cases read : readLine text with
    | error problem => exact ⟨fun _ => nofun, fun _ => ⟨nofun, nofun⟩⟩
    | ok l =>
      have here : (∀ l', (Except.ok l : Except Problem Line) = .ok l' → ∀ name, l'.label = some name →
          (define st.symbols name st.pc).isOk = true → name.length < nameSize) ↔
          ∀ name ∈ l.label.toList.filter fun name => (define st.symbols name st.pc).isOk,
            name.length < nameSize := by
        constructor
        · intro all name inside
          obtain ⟨among, defined⟩ := List.mem_filter.mp inside
          exact all l rfl name (Option.mem_toList.mp among) defined
        · intro all l' same name label defined
          cases same
          exact all name (List.mem_filter.mpr ⟨Option.mem_toList.mpr label, defined⟩)
      rw [here, List.forall_mem_append]
      refine and_congr_right fun _ => ?_
      dsimp only
      cases laid : layoutLine st l with
      | error problem => exact ⟨fun _ => nofun, fun _ => nofun⟩
      | ok st' =>
        exact ih (fun text later => fits text (List.mem_cons_of_mem _ later))
          (layoutLine_room room laid)

theorem secondPass_inside {symbols : List Symbol} {o : Output} {texts : List Text}
    (fits : ∀ text ∈ texts, text.length < maxLine) :
    ∀ s ∈ passStores (fun _ => emitStores symbols) (emitLine symbols) o texts, s.Inside := by
  induction texts generalizing o with
  | nil => exact nofun
  | cons text rest ih =>
    rw [passStores, List.forall_mem_append]
    refine ⟨emitStores_inside (fits text List.mem_cons_self), ?_⟩
    split
    · exact nofun
    split
    · exact nofun
    · exact ih fun text later => fits text (List.mem_cons_of_mem _ later)

/-! ## Limits -/

theorem firstPass_limits {st st' : Layout} {texts : List Text} {lines : List Line}
    (reads : Reads texts lines) (laid : lines.foldlM layoutLine st = .ok st') :
    (texts.filterMap fun text => (readLine text).toOption.bind Line.label) = copied st texts ∧
      st'.symbols.length = st.symbols.length + (copied st texts).length := by
  induction reads generalizing st with
  | nil =>
    cases laid
    exact ⟨rfl, rfl⟩
  | @cons text l texts lines read _ ih =>
    rw [List.foldlM_cons] at laid
    obtain ⟨st₁, first, laid⟩ := bind_ok.mp laid
    obtain ⟨rest, length⟩ := ih laid
    obtain ⟨defined, -⟩ := layoutLine_ok first
    rw [copied, List.filterMap_cons, read, rest, length]
    dsimp only [Except.toOption, Option.bind_some]
    rw [first]
    dsimp only
    cases label : l.label with
    | none =>
      rw [label] at defined
      have same : st.symbols = st₁.symbols := Except.ok.inj defined
      rw [same]
      exact ⟨rfl, rfl⟩
    | some name =>
      rw [label] at defined
      have isOk : (define st.symbols name st.pc).isOk = true := by
        rw [show define st.symbols name st.pc = .ok st₁.symbols from defined]
        rfl
      obtain ⟨-, -, grown⟩ := define_ok defined
      rw [Option.toList_some, List.filter_cons, if_pos isOk, List.filter_nil, grown]
      refine ⟨rfl, ?_⟩
      simp only [List.length_append, List.length_cons, List.length_nil]
      omega

theorem layout_room {st st' : Layout} {lines : List Line} (room : st.symbols.length ≤ maxSymbols)
    (laid : lines.foldlM layoutLine st = .ok st') : st'.symbols.length ≤ maxSymbols := by
  induction lines generalizing st with
  | nil =>
    cases laid
    exact room
  | cons l rest ih =>
    rw [List.foldlM_cons] at laid
    obtain ⟨st₁, first, laid⟩ := bind_ok.mp laid
    exact ih (layoutLine_room room first) laid

theorem reads_words {texts : List Text} {lines : List Line} (reads : Reads texts lines) :
    ∀ text ∈ texts, (words [] (cString text)).length ≤ maxTokens := by
  induction reads with
  | nil => exact nofun
  | @cons text l texts lines read _ ih =>
    refine List.forall_mem_cons.mpr ⟨?_, ih⟩
    unfold readLine at read
    split at read
    · rename_i ts split
      obtain ⟨few, same⟩ := tokenize_length split
      rw [← same]
      exact few
    · cases read

/-- The arrays are guarded if, and only if, no name that is copied is too long for its field. -/
theorem guarded_iff (file : Text) :
    Guarded file ↔ ∀ name ∈ copied .start (fgets file), name.length < nameSize := by
  have fits : ∀ text ∈ fgets file, text.length < maxLine := fun text here => fgets_length here
  have room : Layout.start.symbols.length ≤ maxSymbols := Nat.zero_le _
  constructor
  · intro guarded
    exact (firstPass_inside fits room).mp fun s here =>
      guarded.inside s (List.mem_append_left _ here)
  · intro short
    refine ⟨?_, ?_⟩
    · rw [stores, List.forall_mem_append]
      refine ⟨(firstPass_inside fits room).mpr short, ?_⟩
      split
      · exact nofun
      · exact secondPass_inside fits
    · intro bytes accepted
      obtain ⟨layout, first, -⟩ := bind_ok.mp accepted
      obtain ⟨lines, reads, laid⟩ := eachLine_ok.mp first
      obtain ⟨labels, length⟩ := firstPass_limits reads laid
      have whole := layout_room room laid
      rw [length] at whole
      rw [labels]
      refine ⟨reads_words reads, ?_, short⟩
      exact (Nat.le_add_left _ _).trans whole

/-- A label of 128 letters. -/
def longLabel : Text := List.replicate 128 'A' ++ [':']

/-- Its NUL is written behind the field, and the file is accepted. -/
theorem guarded_longLabel : assemble longLabel = .ok [] ∧ ¬ Guarded longLabel := by
  have accepted : assemble longLabel = .ok [] := by
    decide +kernel
  refine ⟨accepted, fun guarded => ?_⟩
  have outside : (⟨.name, 128⟩ : Store) ∈ stores longLabel := by
    decide +kernel
  exact absurd (guarded.inside _ outside) (by decide)

end ChipEight.Asm
