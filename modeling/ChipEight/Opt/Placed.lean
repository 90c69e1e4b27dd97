import ChipEight.Asm.Bounds
import ChipEight.Asm.Pieces
import ChipEight.Asm.Readings
import ChipEight.Opt.Assembled

/-! Which statements assemble.

Without `.ORG` the symbols of statements are their labels with their addresses. The
statements assemble just if these labels are good ones and every statement, read with them,
has its bytes.
-/

set_option autoImplicit false

namespace ChipEight.Opt

open Asm (Text Token Layout Symbol)

def symbolsOf (statements : List Statement) : List Symbol :=
  statements.filterMap fun s => s.label.map fun name => ⟨encode name, s.pc⟩

theorem symbolsOf_cons (s : Statement) (rest : List Statement) :
    symbolsOf (s :: rest) =
      (s.label.map fun name => (⟨encode name, s.pc⟩ : Symbol)).toList ++ symbolsOf rest := by
  unfold symbolsOf
  cases label : s.label with
  | none => rw [List.filterMap_cons_none (by rw [label]; rfl)]; rfl
  | some name => rw [List.filterMap_cons_some (by rw [label]; rfl)]; rfl

theorem symbolsOf_names (statements : List Statement) :
    (symbolsOf statements).map Symbol.name = (statements.filterMap Statement.label).map encode := by
  unfold symbolsOf
  rw [List.map_filterMap, List.map_filterMap]
  refine List.filterMap_congr fun s _ => ?_
  cases s.label <;> rfl

theorem mem_symbolsOf {statements : List Statement} {symbol : Symbol} :
    symbol ∈ symbolsOf statements ↔
      ∃ s ∈ statements, ∃ name, s.label = some name ∧ symbol = ⟨encode name, s.pc⟩ := by
  unfold symbolsOf
  rw [List.mem_filterMap]
  refine exists_congr fun s => and_congr_right fun _ => ?_
  rw [Option.map_eq_some_iff]
  exact exists_congr fun name => and_congr_right fun _ => eq_comm

section
variable {statements : List Statement}

theorem encoded_distinct
    (valid : ∀ name ∈ statements.filterMap Statement.label, Asm.isName (encode name) = true)
    (distinct : (statements.filterMap Statement.label).Nodup) :
    ((statements.filterMap Statement.label).map encode).Nodup := by
  refine distinct.map_on fun a here b here' same => ?_
  have ascii := ascii_of_encode (Asm.name_ascii (valid a here))
  have ascii' := ascii_of_encode (Asm.name_ascii (valid b here'))
  rw [encode_ascii ascii, encode_ascii ascii'] at same
  exact same

theorem lookup_symbolsOf
    (valid : ∀ name ∈ statements.filterMap Statement.label, Asm.isName (encode name) = true)
    (distinct : (statements.filterMap Statement.label).Nodup) {s : Statement}
    (here : s ∈ statements) {name : Token} (label : s.label = some name) :
    Asm.lookup (symbolsOf statements) (encode name) = some ⟨encode name, s.pc⟩ := by
  have names := encoded_distinct valid distinct
  rw [← symbolsOf_names] at names
  exact Asm.lookup_mem names (mem_symbolsOf.mpr ⟨s, here, name, label, rfl⟩)

end

/-- What statements have to meet to be assembled into bytes. -/
structure WellPlaced (statements : List Statement) (stop : Nat) (bytes : List Byte) : Prop where
  room : stop ≤ memorySize
  valid : ∀ name ∈ statements.filterMap Statement.label, Asm.isName (encode name) = true
  distinct : (statements.filterMap Statement.label).Nodup
  few : (statements.filterMap Statement.label).length ≤ Asm.maxSymbols
  length : entry + bytes.length = stop
  written : ∀ s ∈ statements,
    Asm.lineSize (Asm.value (symbolsOf statements) true) s.pc s.toLine.statement =
      .ok (s.size, bytesOf bytes s)

section
variable {U : Unicode} {statements : List Statement} {stop : Nat} {layout : Layout}
  {bytes : List Byte}

theorem laid_symbols {start : Nat} {st st' : Layout} (follows : Follows U start statements stop)
    (bare : ∀ s ∈ statements, s.op = none → s.args = [])
    (noOrg : ∀ s ∈ statements, s.op ≠ some opOrg) (here : st.pc = start)
    (laid : (statements.map Statement.toLine).foldlM Asm.layoutLine st = .ok st') :
    st' = ⟨st.symbols ++ symbolsOf statements, stop⟩ := by
  induction follows generalizing st with
  | nil =>
    obtain rfl : st = st' := Except.ok.inj laid
    rw [← here]
    exact congrArg (fun symbols => Layout.mk symbols st.pc) (List.append_nil _).symm
  | @cons s rest stop sized _ ih =>
    rw [List.map_cons, List.foldlM_cons] at laid
    obtain ⟨st₁, first, laid⟩ := Asm.bind_ok.mp laid
    obtain ⟨defined, -, size, out, measured, pc⟩ := Asm.layoutLine_ok first
    rw [here] at measured pc
    have same := toLine_size (bare s List.mem_cons_self) (noOrg s List.mem_cons_self) sized measured
    have grown : st₁.symbols =
        st.symbols ++ (s.label.map fun name => (⟨encode name, s.pc⟩ : Symbol)).toList := by
      have isLabel : s.toLine.label = s.label.map encode := rfl
      rw [isLabel] at defined
      cases label : s.label with
      | none =>
        rw [label] at defined
        exact (Except.ok.inj defined).symm.trans (List.append_nil _).symm
      | some name =>
        rw [label] at defined
        rw [← here]
        exact (Asm.define_ok defined).2.2
    rw [ih (fun s' later => bare s' (List.mem_cons_of_mem _ later))
      (fun s' later => noOrg s' (List.mem_cons_of_mem _ later)) (by rw [pc, same]) laid, grown,
      symbolsOf_cons, List.append_assoc]

theorem WellPlaced.of_assembled (assembled : Assembled statements layout bytes)
    (follows : Follows U entry statements stop) (bare : ∀ s ∈ statements, s.op = none → s.args = [])
    (noOrg : ∀ s ∈ statements, s.op ≠ some opOrg) :
    layout = ⟨symbolsOf statements, stop⟩ ∧ WellPlaced statements stop bytes := by
  obtain ⟨laid, o, emitted, rfl⟩ := assembled_folds assembled
  obtain rfl := laid_symbols follows bare noOrg rfl laid
  have addresses := Asm.layout_addresses (Nat.le_refl _)
    (fun _ mem => absurd mem List.not_mem_nil) laid
  have inStep := Asm.lines_inStep .start laid (Asm.Extends.refl _) emitted
  refine ⟨rfl, Asm.layout_bound (by decide) laid, ?_, assembled_labels assembled, ?_,
    inStep.written, fun s here => (assembled_at assembled follows bare noOrg here).1⟩
  · intro name here
    have isName : encode name ∈ (symbolsOf statements).map Symbol.name := by
      rw [symbolsOf_names]
      exact List.mem_map_of_mem here
    obtain ⟨symbol, inside, same⟩ := List.mem_map.mp isName
    rw [← same]
    exact (addresses symbol inside).1
  · have few := Asm.layout_room (Nat.zero_le _) laid
    have length := congrArg List.length (symbolsOf_names statements)
    rw [List.length_map, List.length_map] at length
    rw [← length]
    exact few

/-! ## The other direction -/

theorem Follows.le {start : Nat} (follows : Follows U start statements stop) : start ≤ stop := by
  induction follows with
  | nil => exact Nat.le_refl _
  | cons _ _ ih => exact Nat.le_trans (Nat.le_add_right _ _) ih

theorem labels_cons (s : Statement) (rest : List Statement) :
    (s :: rest).filterMap Statement.label = s.label.toList ++ rest.filterMap Statement.label := by
  cases label : s.label with
  | none => rw [List.filterMap_cons_none label]; rfl
  | some name => rw [List.filterMap_cons_some label]; rfl

theorem layout_placed {start : Nat} {st : Layout} {symbols : List Symbol}
    {out : Statement → List Byte} (follows : Follows U start statements stop)
    (bare : ∀ s ∈ statements, s.op = none → s.args = [])
    (noOrg : ∀ s ∈ statements, s.op ≠ some opOrg) (here : st.pc = start) (room : stop ≤ memorySize)
    (valid : ∀ name ∈ statements.filterMap Statement.label, Asm.isName (encode name) = true)
    (distinct : (st.symbols.map Symbol.name ++
      (statements.filterMap Statement.label).map encode).Nodup)
    (few : st.symbols.length + (statements.filterMap Statement.label).length ≤ Asm.maxSymbols)
    (final : Asm.Extends symbols (st.symbols ++ symbolsOf statements))
    (written : ∀ s ∈ statements,
      Asm.lineSize (Asm.value symbols true) s.pc s.toLine.statement = .ok (s.size, out s)) :
    (statements.map Statement.toLine).foldlM Asm.layoutLine st =
      .ok ⟨st.symbols ++ symbolsOf statements, stop⟩ := by
  induction follows generalizing st with
  | nil =>
    rw [← here]
    exact congrArg (fun symbols => Except.ok (Layout.mk symbols st.pc)) (List.append_nil _).symm
  | @cons s rest stop sized follows ih =>
    rw [labels_cons] at valid distinct few
    rw [symbolsOf_cons, ← List.append_assoc] at final ⊢
    rw [List.map_append, ← List.append_assoc] at distinct
    rw [List.length_append, ← Nat.add_assoc] at few
    -- What the first line adds: its label, at the address laid out for it.
    let new : List Symbol := (s.label.map fun name => ⟨encode name, s.pc⟩).toList
    have names : new.map Symbol.name = s.label.toList.map encode := by
      show List.map _ (Option.toList (Option.map _ s.label)) = _
      cases s.label <;> rfl
    have defined : Asm.defineLabel st s.toLine.label = .ok (st.symbols ++ new) := by
      have same : new = (s.toLine.label.map fun name => (⟨name, st.pc⟩ : Symbol)).toList := by
        rw [here]
        show Option.toList (Option.map _ s.label) = Option.toList (Option.map _ (s.label.map encode))
        cases s.label <;> rfl
      have known {name : Token} (label : s.toLine.label = some name) :
          ∃ label', s.label = some label' ∧ encode label' = name := Option.map_eq_some_iff.mp label
      rw [same]
      apply Asm.defineLabel_new
      · intro name label
        obtain ⟨label', isLabel, rfl⟩ := known label
        exact valid label' (List.mem_append_left _ (Option.mem_toList.mpr isLabel))
      · intro name label there
        obtain ⟨label', isLabel, rfl⟩ := known label
        have apart := (List.nodup_append.mp (List.nodup_append.mp distinct).1).2.2
        exact apart _ there _ (List.mem_map_of_mem (Option.mem_toList.mpr isLabel)) rfl
      · have length : s.toLine.label.toList.length = s.label.toList.length := by
          show (Option.toList (s.label.map encode)).length = _
          cases s.label <;> rfl
        rw [length]
        exact Nat.le_trans (Nat.le_add_right _ _) few
    have fits := follows.le
    have extends' : Asm.Extends symbols (st.symbols ++ new) := by
      obtain ⟨more, grown⟩ := final
      exact ⟨symbolsOf rest ++ more, by rw [grown, List.append_assoc]⟩
    obtain ⟨out', sized'⟩ := Asm.lineSize_first (Asm.below_earlier extends')
      (toLine_plain (bare s List.mem_cons_self) (noOrg s List.mem_cons_self))
      (written s List.mem_cons_self)
    have stepped : Asm.layoutLine st s.toLine = .ok ⟨st.symbols ++ new, s.pc + s.size⟩ := by
      unfold Asm.layoutLine
      simp only [bind, Except.bind, defined, here, sized']
      rw [if_neg (by omega)]
      rfl
    rw [List.map_cons, List.foldlM_cons, stepped]
    refine ih (fun s' later => bare s' (List.mem_cons_of_mem _ later))
      (fun s' later => noOrg s' (List.mem_cons_of_mem _ later)) rfl room
      (fun name later => valid name (List.mem_append_right _ later)) ?_ ?_ final
      fun s' later => written s' (List.mem_cons_of_mem _ later)
    · rw [List.map_append, names]
      exact distinct
    · have length := congrArg List.length names
      rw [List.length_map, List.length_map] at length
      rw [List.length_append, length]
      exact few

theorem emit_placed {start : Nat} {o : Asm.Output} {symbols : List Symbol}
    {out : Statement → List Byte} (follows : Follows U start statements stop)
    (bare : ∀ s ∈ statements, s.op = none → s.args = [])
    (noOrg : ∀ s ∈ statements, s.op ≠ some opOrg) (here : o.pc = start)
    (written : ∀ s ∈ statements,
      Asm.lineSize (Asm.value symbols true) s.pc s.toLine.statement = .ok (s.size, out s)) :
    (statements.map Statement.toLine).foldlM (Asm.emitLine symbols) o =
      .ok ⟨stop, o.bytes ++ statements.flatMap out⟩ := by
  induction follows generalizing o with
  | nil =>
    rw [← here]
    exact congrArg (fun bytes => Except.ok (Asm.Output.mk o.pc bytes)) (List.append_nil _).symm
  | @cons s rest stop sized follows ih =>
    have plain := toLine_plain (bare s List.mem_cons_self) (noOrg s List.mem_cons_self)
    have stepped : Asm.emitLine symbols o s.toLine = .ok ⟨s.pc + s.size, o.bytes ++ out s⟩ := by
      unfold Asm.emitLine
      simp only [bind, Except.bind, here, written s List.mem_cons_self]
      rw [if_neg fun isOrg => plain (beq_iff_eq.mp isOrg)]
      rfl
    rw [List.map_cons, List.foldlM_cons, stepped]
    refine (ih (fun s' later => bare s' (List.mem_cons_of_mem _ later))
      (fun s' later => noOrg s' (List.mem_cons_of_mem _ later)) rfl
      fun s' later => written s' (List.mem_cons_of_mem _ later)).trans ?_
    rw [List.flatMap_cons, List.append_assoc]

theorem bytesOf_all {start : Nat} (follows : Follows U start statements stop) (above : entry ≤ start) :
    statements.flatMap (bytesOf bytes) = (bytes.drop (start - entry)).take (stop - start) := by
  induction follows with
  | nil => rw [Nat.sub_self, List.take_zero]; rfl
  | @cons s rest stop sized follows ih =>
    have fits := follows.le
    rw [List.flatMap_cons, ih (by omega), bytesOf, show s.pc + s.size - entry =
      s.pc - entry + s.size by omega, ← List.drop_drop, show stop - s.pc =
      s.size + (stop - (s.pc + s.size)) by omega, List.take_add]

theorem WellPlaced.assembled (placed : WellPlaced statements stop bytes)
    (follows : Follows U entry statements stop) (bare : ∀ s ∈ statements, s.op = none → s.args = [])
    (noOrg : ∀ s ∈ statements, s.op ≠ some opOrg) :
    Assembled statements ⟨symbolsOf statements, stop⟩ bytes := by
  have start : Layout.start.pc ≤ memorySize := by decide
  have distinct := encoded_distinct placed.valid placed.distinct
  unfold Assembled
  rw [items_toLine]
  refine ⟨?_, ⟨stop, bytes⟩, ?_, rfl⟩
  · rw [← Asm.layout_items start]
    exact layout_placed follows bare noOrg rfl placed.room placed.valid distinct
      ((Nat.zero_add _).trans_le placed.few) (Asm.Extends.refl _) placed.written
  · rw [← Asm.emit_items]
    refine (emit_placed follows bare noOrg rfl placed.written).trans ?_
    have length := placed.length
    rw [bytesOf_all follows (Nat.le_refl _), Nat.sub_self, List.drop_zero,
      List.take_of_length_le (by omega)]
    rfl

end

end ChipEight.Opt
