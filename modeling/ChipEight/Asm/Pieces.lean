import ChipEight.Asm.Items

/-! Assembling lines whose bytes are known.

A piece is a line with the bytes it is to become. The first pass lays pieces out one
behind the other, and where the second pass, with all labels known, makes of each line
the bytes of its piece, the file is the bytes of all pieces.
-/

set_option autoImplicit false

namespace ChipEight.Asm

structure Piece where
  label : Option Token
  statement : List Token
  bytes : List Byte

def Piece.line (p : Piece) : Line := ⟨p.label, p.statement⟩

/-- The symbols of pieces that begin at `pc`. -/
def symbolsFrom (pc : Nat) : List Piece → List Symbol
  | [] => []
  | p :: ps => (p.label.map fun name => ⟨name, pc⟩).toList ++ symbolsFrom (pc + p.bytes.length) ps

theorem symbolsFrom_append (pc : Nat) (before after : List Piece) :
    symbolsFrom pc (before ++ after) =
      symbolsFrom pc before ++ symbolsFrom (pc + (before.flatMap Piece.bytes).length) after := by
  induction before generalizing pc with
  | nil => rfl
  | cons p before ih =>
    rw [List.cons_append, symbolsFrom, symbolsFrom, ih, List.flatMap_cons, List.length_append,
      Nat.add_assoc, List.append_assoc]

theorem symbolsFrom_names (pc : Nat) (pieces : List Piece) :
    (symbolsFrom pc pieces).map Symbol.name = pieces.filterMap Piece.label := by
  induction pieces generalizing pc with
  | nil => rfl
  | cons p pieces ih =>
    rw [symbolsFrom, List.map_append, ih]
    cases label : p.label with
    | none =>
      rw [List.filterMap_cons_none label]
      rfl
    | some name =>
      rw [List.filterMap_cons_some label]
      rfl

theorem symbol_at (pc : Nat) (before after : List Piece) {p : Piece} {name : Token}
    (label : p.label = some name) :
    ⟨name, pc + (before.flatMap Piece.bytes).length⟩ ∈ symbolsFrom pc (before ++ p :: after) := by
  rw [symbolsFrom_append, symbolsFrom, label]
  exact List.mem_append_right _ List.mem_cons_self

theorem lookup_mem {symbols : List Symbol} (distinct : (symbols.map Symbol.name).Nodup)
    {s : Symbol} (here : s ∈ symbols) : lookup symbols s.name = some s := by
  induction symbols with
  | nil => cases here
  | cons t symbols ih =>
    obtain ⟨fresh, distinct⟩ := List.nodup_cons.mp distinct
    unfold lookup at ih ⊢
    rw [List.find?_cons]
    obtain rfl | later := List.mem_cons.mp here
    · rw [beq_self_eq_true]
    · have apart : (t.name == s.name) = false := by
        apply beq_false_of_ne
        intro same
        exact fresh (same ▸ List.mem_map_of_mem later)
      rw [apart]
      exact ih distinct later

theorem lookup_fresh {symbols : List Symbol} {name : Token}
    (fresh : name ∉ symbols.map Symbol.name) : lookup symbols name = none := by
  apply List.find?_eq_none.mpr
  intro s here same
  exact fresh (beq_iff_eq.mp same ▸ List.mem_map_of_mem here)

theorem defineLabel_new {st : Layout} {label : Option Token}
    (valid : ∀ name, label = some name → isName name = true)
    (fresh : ∀ name, label = some name → name ∉ st.symbols.map Symbol.name)
    (few : st.symbols.length + label.toList.length ≤ maxSymbols) :
    defineLabel st label =
      .ok (st.symbols ++ (label.map fun name => (⟨name, st.pc⟩ : Symbol)).toList) := by
  cases label with
  | none => exact congrArg Except.ok (List.append_nil st.symbols).symm
  | some name =>
    have new := lookup_fresh (fresh name rfl)
    have free : (st.symbols.length == maxSymbols) = false := by
      rw [Option.toList_some, List.length_singleton] at few
      exact beq_false_of_ne (by omega)
    show define st.symbols name st.pc = _
    simp only [define, valid name rfl, new, free, Bool.not_true, Option.isSome_none,
      Bool.false_eq_true, if_false]
    rfl

/-- What the first pass asks of pieces behind the symbols of the table. -/
structure Fits (symbols : List Symbol) (pc : Nat) (pieces : List Piece) : Prop where
  valid : ∀ p ∈ pieces, ∀ name, p.label = some name → isName name = true
  distinct : (symbols.map Symbol.name ++ pieces.filterMap Piece.label).Nodup
  few : symbols.length + (pieces.filterMap Piece.label).length ≤ maxSymbols
  room : pc + (pieces.flatMap Piece.bytes).length ≤ memorySize
  nonempty : ∀ p ∈ pieces, p.bytes ≠ []
  inside : ∀ s ∈ symbols, s.value < memorySize
  sized : ∀ p ∈ pieces, ∀ (pc : Nat) (table : List Symbol), (∀ s ∈ table, s.value < memorySize) →
    ∃ out, lineSize (value table false) pc p.statement = .ok (p.bytes.length, out)

theorem layoutLine_piece {symbols : List Symbol} {pc : Nat} {p : Piece} {pieces : List Piece}
    (fits : Fits symbols pc (p :: pieces)) :
    layoutLine ⟨symbols, pc⟩ p.line =
      .ok ⟨symbols ++ (p.label.map fun name => ⟨name, pc⟩).toList, pc + p.bytes.length⟩ ∧
    Fits (symbols ++ (p.label.map fun name => ⟨name, pc⟩).toList) (pc + p.bytes.length) pieces := by
  have room := fits.room
  rw [List.flatMap_cons, List.length_append] at room
  have some : 0 < p.bytes.length := List.length_pos_iff.mpr (fits.nonempty p List.mem_cons_self)
  have rest {P : Piece → Prop} (all : ∀ q ∈ p :: pieces, P q) : ∀ q ∈ pieces, P q :=
    fun q later => all q (List.mem_cons_of_mem p later)
  have inside : ∀ s ∈ symbols ++ (p.label.map fun name => (⟨name, pc⟩ : Symbol)).toList,
      s.value < memorySize := by
    intro s here
    obtain old | new := List.mem_append.mp here
    · exact fits.inside s old
    · obtain ⟨name, -, rfl⟩ := Option.map_eq_some_iff.mp (Option.mem_toList.mp new)
      show pc < memorySize
      omega
  have defined : defineLabel ⟨symbols, pc⟩ p.label =
      .ok (symbols ++ (p.label.map fun name => ⟨name, pc⟩).toList) := by
    have distinct := fits.distinct
    have few := fits.few
    apply defineLabel_new
    · exact fits.valid p List.mem_cons_self
    · intro name label
      rw [List.filterMap_cons_some label] at distinct
      exact fun there => (List.nodup_append.mp distinct).2.2 name there name List.mem_cons_self rfl
    · cases label : p.label with
      | none => exact Nat.le_trans (Nat.le_add_right _ _) few
      | some name =>
        rw [List.filterMap_cons_some label, List.length_cons] at few
        show symbols.length + 1 ≤ _
        omega
  obtain ⟨out, sized⟩ := fits.sized p List.mem_cons_self pc _ inside
  constructor
  · unfold layoutLine Piece.line
    dsimp only
    rw [defined]
    simp only [bind, Except.bind, sized]
    rw [if_neg (by omega)]
    rfl
  · refine ⟨rest fits.valid, ?_, ?_, ?_, rest fits.nonempty, inside, rest fits.sized⟩
    · have distinct := fits.distinct
      cases label : p.label with
      | none =>
        rw [List.filterMap_cons_none label] at distinct
        show ((symbols ++ []).map _ ++ _).Nodup
        rwa [List.append_nil]
      | some name =>
        rw [List.filterMap_cons_some label] at distinct
        show ((symbols ++ [_]).map _ ++ _).Nodup
        rwa [List.map_append, List.append_assoc]
    · have few := fits.few
      cases label : p.label with
      | none =>
        rw [List.filterMap_cons_none label] at few
        rw [List.length_append]
        exact few
      | some name =>
        rw [List.filterMap_cons_some label, List.length_cons] at few
        rw [List.length_append]
        show symbols.length + 1 + _ ≤ _
        omega
    · omega

theorem layout_pieces {symbols : List Symbol} {pc : Nat} {pieces : List Piece}
    (fits : Fits symbols pc pieces) :
    (pieces.map Piece.line).foldlM layoutLine ⟨symbols, pc⟩ =
      .ok ⟨symbols ++ symbolsFrom pc pieces, pc + (pieces.flatMap Piece.bytes).length⟩ := by
  induction pieces generalizing symbols pc with
  | nil =>
    show Except.ok (⟨symbols, pc⟩ : Layout) = .ok ⟨symbols ++ [], pc⟩
    rw [List.append_nil]
  | cons p pieces ih =>
    obtain ⟨laid, later⟩ := layoutLine_piece fits
    rw [List.map_cons, List.foldlM_cons, laid]
    show (pieces.map Piece.line).foldlM layoutLine _ = _
    rw [ih later, symbolsFrom, List.flatMap_cons, List.length_append, List.append_assoc,
      Nat.add_assoc]

/-- With these symbols every piece becomes its bytes. -/
def Written (symbols : List Symbol) (pieces : List Piece) : Prop :=
  ∀ p ∈ pieces, p.statement.head? ≠ some dirOrg ∧
    ∀ pc, lineSize (value symbols true) pc p.statement = .ok (p.bytes.length, p.bytes)

theorem emit_pieces {symbols : List Symbol} {pieces : List Piece}
    (written : Written symbols pieces) (o : Output) :
    (pieces.map Piece.line).foldlM (emitLine symbols) o =
      .ok ⟨o.pc + (pieces.flatMap Piece.bytes).length, o.bytes ++ pieces.flatMap Piece.bytes⟩ := by
  induction pieces generalizing o with
  | nil =>
    show Except.ok o = .ok ⟨o.pc, o.bytes ++ []⟩
    rw [List.append_nil]
  | cons p pieces ih =>
    obtain ⟨noOrg, sized⟩ := written p List.mem_cons_self
    have emitted : emitLine symbols o p.line = .ok ⟨o.pc + p.bytes.length, o.bytes ++ p.bytes⟩ := by
      have plain : (p.statement.head? == some dirOrg) = false := beq_false_of_ne noOrg
      unfold emitLine Piece.line
      simp only [bind, Except.bind, sized, plain, Bool.false_eq_true, if_false]
      rfl
    rw [List.map_cons, List.foldlM_cons, emitted]
    show (pieces.map Piece.line).foldlM (emitLine symbols) _ = _
    rw [ih fun q later => written q (List.mem_cons_of_mem p later), List.flatMap_cons,
      List.length_append, List.append_assoc, Nat.add_assoc]

theorem assembles_pieces {pieces : List Piece} (fits : Fits [] entrypoint.toNat pieces)
    (written : Written (symbolsFrom entrypoint.toNat pieces) pieces) :
    Assembles (items (pieces.map Piece.line))
      ⟨symbolsFrom entrypoint.toNat pieces,
        entrypoint.toNat + (pieces.flatMap Piece.bytes).length⟩
      (pieces.flatMap Piece.bytes) := by
  have room : Layout.start.pc ≤ memorySize := by decide
  constructor
  · rw [← layout_items room]
    exact layout_pieces fits
  · have emitted := emit_pieces written .start
    rw [emit_items] at emitted
    exact ⟨_, emitted, rfl⟩

end ChipEight.Asm
