import ChipEight.Asm.Pieces
import ChipEight.Opt.Program

/-! The ROM of a list of statements.

The lines `canonicalize` prints are the items of the statements. Where the sizes are those
of the assembler, each statement has its bytes at its address and its label is that address.
-/

set_option autoImplicit false

namespace ChipEight.Opt

open Asm (Text Token Line Layout Symbol)

/-- What chip8-asm makes of the lines that are printed for statements. -/
def Assembled (statements : List Statement) (layout : Layout) (bytes : List Byte) : Prop :=
  Asm.Assembles ((statements.flatMap Statement.items).map encodeLine) layout bytes

/-- The bytes at the address of a statement. -/
def bytesOf (bytes : List Byte) (s : Statement) : List Byte :=
  (bytes.drop (s.pc - entry)).take s.size

/-- A statement as a line, its label in front of it. -/
def Statement.toLine (s : Statement) : Line := encodeLine ⟨s.label, s.words⟩

theorem items_toLine (statements : List Statement) :
    (statements.flatMap Statement.items).map encodeLine =
      Asm.items (statements.map Statement.toLine) := by
  induction statements with
  | nil => rfl
  | cons s rest ih =>
    rw [List.flatMap_cons, List.map_append, ih, List.map_cons, Asm.items_cons]
    exact congrArg (· ++ _) (items_encode ⟨s.label, s.words⟩).symm

theorem assembled_folds {statements : List Statement} {layout : Layout} {bytes : List Byte}
    (assembled : Assembled statements layout bytes) :
    (statements.map Statement.toLine).foldlM Asm.layoutLine .start = .ok layout ∧
      ∃ out, (statements.map Statement.toLine).foldlM (Asm.emitLine layout.symbols) .start =
        .ok out ∧ out.bytes = bytes := by
  have room : Layout.start.pc ≤ memorySize := by decide
  unfold Assembled at assembled
  rw [items_toLine] at assembled
  obtain ⟨first, out, second, same⟩ := assembled
  rw [← Asm.layout_items room] at first
  rw [← Asm.emit_items] at second
  exact ⟨first, out, second, same⟩

theorem layout_names {st st' : Layout} {lines : List Line}
    (laid : lines.foldlM Asm.layoutLine st = .ok st')
    (distinct : (st.symbols.map Symbol.name).Nodup) :
    st'.symbols.map Symbol.name = st.symbols.map Symbol.name ++ lines.filterMap Line.label ∧
      (st'.symbols.map Symbol.name).Nodup := by
  induction lines generalizing st with
  | nil =>
    cases laid
    exact ⟨(List.append_nil _).symm, distinct⟩
  | cons l rest ih =>
    rw [List.foldlM_cons] at laid
    obtain ⟨st₁, first, laid⟩ := Asm.bind_ok.mp laid
    obtain ⟨defined, -⟩ := Asm.layoutLine_ok first
    cases label : l.label with
    | none =>
      rw [label] at defined
      have same : st.symbols = st₁.symbols := Except.ok.inj defined
      rw [List.filterMap_cons_none label, same]
      exact ih laid (same ▸ distinct)
    | some name =>
      rw [label] at defined
      obtain ⟨-, fresh, grown⟩ := Asm.define_ok defined
      have new : name ∉ st.symbols.map Symbol.name := by
        intro known
        obtain ⟨symbol, inside, rfl⟩ := List.mem_map.mp known
        rw [Asm.lookup_mem distinct inside] at fresh
        cases fresh
      have names : st₁.symbols.map Symbol.name = st.symbols.map Symbol.name ++ [name] := by
        rw [grown, List.map_append]
        rfl
      obtain ⟨all, still⟩ := ih laid (by
        rw [names]
        exact List.nodup_append.mpr ⟨distinct, List.nodup_singleton name, by
          rintro x known y isNew rfl
          exact new (List.mem_singleton.mp isNew ▸ known)⟩)
      refine ⟨?_, still⟩
      rw [all, names, List.filterMap_cons_some label, List.append_assoc]
      rfl

theorem assembled_labels {statements : List Statement} {layout : Layout} {bytes : List Byte}
    (assembled : Assembled statements layout bytes) :
    (statements.filterMap Statement.label).Nodup := by
  obtain ⟨first, -⟩ := assembled_folds assembled
  obtain ⟨names, distinct⟩ := layout_names first List.nodup_nil
  have labels : (statements.map Statement.toLine).filterMap Line.label =
      (statements.filterMap Statement.label).map encode := by
    rw [List.filterMap_map, List.map_filterMap]
    rfl
  rw [names, labels] at distinct
  exact List.Nodup.of_map encode distinct

section
variable {U : Unicode} {statements : List Statement} {stop : Nat} {layout : Layout}
  {bytes : List Byte}

theorem toLine_plain {s : Statement} (bare : s.op = none → s.args = []) (other : s.op ≠ some opOrg) :
    s.toLine.statement.head? ≠ some Asm.dirOrg := by
  intro isOrg
  obtain ⟨head, -⟩ := words_head_tail bare
  unfold Statement.toLine encodeLine at isOrg
  rw [List.head?_map, head] at isOrg
  obtain ⟨op, isOp, same⟩ := Option.map_eq_some_iff.mp isOrg
  rw [(encode_eq_ascii (by decide)).mp same] at isOp
  exact other isOp

theorem toLine_size {symbols : List Symbol} {resolve : Bool} {s : Statement} {size : Nat}
    {out : List Byte} (bare : s.op = none → s.args = []) (other : s.op ≠ some opOrg)
    (sized : sizeOf U s.line s.pc s.op s.args = .ok s.size)
    (measured : Asm.lineSize (Asm.value symbols resolve) s.pc s.toLine.statement =
      .ok (size, out)) : size = s.size := by
  obtain ⟨head, tail⟩ := words_head_tail bare
  have org : SameOrg U s.words := by
    intro a shape
    rw [shape] at head
    exact absurd head.symm other
  have known := @sizeOf_keeps U symbols resolve s.line s.pc size out s.words org measured
  rw [head, tail, sized] at known
  exact (Except.ok.inj known).symm

theorem emit_pc {start : Nat} {symbols : List Symbol} {o o' : Asm.Output}
    (follows : Follows U start statements stop)
    (bare : ∀ s ∈ statements, s.op = none → s.args = [])
    (noOrg : ∀ s ∈ statements, s.op ≠ some opOrg) (here : o.pc = start)
    (emitted : (statements.map Statement.toLine).foldlM (Asm.emitLine symbols) o = .ok o') :
    o'.pc = stop := by
  induction follows generalizing o with
  | nil =>
    cases emitted
    exact here
  | @cons s rest stop sized _ ih =>
    rw [List.map_cons, List.foldlM_cons] at emitted
    obtain ⟨o₁, first, emitted⟩ := Asm.bind_ok.mp emitted
    obtain ⟨size, out, measured, pc, -⟩ := Asm.emitLine_ok first
    rw [here] at measured pc
    have same := toLine_size (bare s List.mem_cons_self) (noOrg s List.mem_cons_self) sized measured
    exact ih (fun s' later => bare s' (List.mem_cons_of_mem _ later))
      (fun s' later => noOrg s' (List.mem_cons_of_mem _ later)) (by rw [pc, same]) emitted

theorem Follows.split {start : Nat} {before after : List Statement} {s : Statement}
    (follows : Follows U start (before ++ s :: after) stop) :
    Follows U start before s.pc ∧ sizeOf U s.line s.pc s.op s.args = .ok s.size := by
  induction before generalizing start with
  | nil =>
    cases follows with
    | cons sized _ => exact ⟨.nil, sized⟩
  | cons r rest ih =>
    cases follows with
    | cons sized follows =>
      obtain ⟨first, here⟩ := ih follows
      exact ⟨.cons sized first, here⟩

theorem assembled_at (assembled : Assembled statements layout bytes)
    (follows : Follows U entry statements stop)
    (bare : ∀ s ∈ statements, s.op = none → s.args = [])
    (noOrg : ∀ s ∈ statements, s.op ≠ some opOrg) {s : Statement} (here : s ∈ statements) :
    Asm.lineSize (Asm.value layout.symbols true) s.pc s.toLine.statement =
        .ok (s.size, bytesOf bytes s) ∧
      ∀ name, s.label = some name →
        Asm.lookup layout.symbols (encode name) = some ⟨encode name, s.pc⟩ := by
  obtain ⟨laid, o, emitted, rfl⟩ := assembled_folds assembled
  obtain ⟨before, after, rfl⟩ := List.append_of_mem here
  obtain ⟨earlier, sized⟩ := follows.split
  rw [List.map_append, List.map_cons] at laid emitted
  obtain ⟨st₁, st₂, laid₁, laid₂, laid₃⟩ := Asm.foldlM_split laid
  obtain ⟨o₁, o₂, emitted₁, emitted₂, emitted₃⟩ := Asm.foldlM_split emitted
  have known₂ := Asm.layout_extends laid₃
  have known₁ := (Asm.layoutLine_extends laid₂).trans known₂
  have inStep := Asm.lines_inStep .start laid₁ known₁ emitted₁
  have pc : o₁.pc = s.pc := emit_pc earlier (fun r inside => bare r (List.mem_append_left _ inside))
    (fun r inside => noOrg r (List.mem_append_left _ inside)) rfl emitted₁
  have written : 0x200 + o₁.bytes.length = s.pc := by rw [inStep.written, ← inStep.pc, pc]
  constructor
  · obtain ⟨size, out, measured, -, split⟩ := Asm.emitLine_ok emitted₂
    rw [pc] at measured
    have same := toLine_size (bare s here) (noOrg s here) sized measured
    obtain ⟨rest, more⟩ := Asm.emit_prefix emitted₃
    have plain := toLine_plain (bare s here) (noOrg s here)
    rw [if_neg fun isOrg => plain (beq_iff_eq.mp isOrg)] at split
    have length := (Asm.lineSize_plain plain measured).1
    have out' : bytesOf o.bytes s = out := by
      have start : s.pc - entry = o₁.bytes.length := by
        unfold entry
        omega
      rw [bytesOf, more, split, start, List.append_assoc, List.drop_left, ← same, ← length,
        List.take_left]
    rw [out', ← same]
    exact measured
  · intro name label
    have named : s.toLine.label = some (encode name) := by
      unfold Statement.toLine encodeLine
      rw [label]
      rfl
    rw [known₂.lookup (Asm.label_address inStep laid₂ named).2, written]

end

end ChipEight.Opt
