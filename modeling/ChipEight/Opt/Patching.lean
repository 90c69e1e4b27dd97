import ChipEight.Opt.Moves

/-! The ROM of the optimized statements is the original one, patched. -/

set_option autoImplicit false

namespace ChipEight.Opt

open Asm (Text Token Mnemonic Means Layout Symbol wordI)
open Layout (total offset)

/-! ## The optimized program -/

/-- What is used of a program, its copy with symbolic addresses and the images of the copy, all
assembled. -/
structure Optimized (U : Unicode) (labels labels' : Labels) (made : List Nat)
    (free : Nat → Bool) (statements program : List Statement) (layout layout' : Layout)
    (bytes bytes' : List Byte) : Prop where
  printed : ∀ s ∈ statements, Printed s
  printed' : ∀ s ∈ program, Printed s
  follows : ∃ stop, Follows U entry statements stop ∧ Follows U entry program stop
  relaid : ∃ stop, Follows U entry (relocated U labels' free program).flatten stop
  original : Assembled statements layout bytes
  optimized : Assembled (relocated U labels' free program).flatten layout' bytes'
  copies : ∀ q ∈ program, isInstruction q = true → ∃ s ∈ statements,
    Copy U made labels program s q
  numbers : ∀ s ∈ statements, isInstruction s = true → ∀ a ∈ s.args, ∀ n : Nat,
    Asm.strtoul (encode a) = some n → parseNumber U a = some (n : Int)
  resolves : ∀ s ∈ statements, isInstruction s = true → ∀ a ∈ s.args, ∀ n : Nat,
    Asm.value layout.symbols true a = .ok n → resolve U labels a = some (n : Int)
  anchors : ∀ symbol ∈ layout.symbols, ∃ name, symbol.name = encode name ∧
    Anchored program name symbol.value
  guards : ∀ name v, Anchored program name v → ∀ q ∈ program, q.pc = v → ¬ Loose free q
  enters : ∀ q ∈ program, q.pc = entry → ¬ Loose free q
  skips : ∀ {k j m : Nat} {q t r : Statement}, program[k]? = some q → isSkip q = true →
    program[j]? = some t → t.pc = q.pc + 2 ∨ t.pc = q.pc + 4 → k ≤ m → m ≤ j →
    program[m]? = some r → ¬ Loose free r
  above : ∀ v ∈ made, entry ≤ v
  numeric : ∀ s ∈ statements, isReference s = true → numericLast U s = true → ∀ v : Nat,
    target U labels s = some (v : Int) → (∃ q ∈ program, isInstruction q = true ∧ q.pc = v) →
    v ∈ made

section
variable {U : Unicode} {labels labels' : Labels} {made : List Nat} {free : Nat → Bool}
  {statements program : List Statement} {layout layout' : Layout} {bytes bytes' : List Byte}

/-- An instruction statement of the program, and the one it is a copy of. -/
structure Located (U : Unicode) (labels : Labels) (made : List Nat)
    (statements program : List Statement) (layout : Layout) (bytes : List Byte) (k : Nat)
    (q s : Statement) (m : Mnemonic) (i : Insn) : Prop where
  here : program[k]? = some q
  isInsn : isInstruction q = true
  among : s ∈ statements
  copy : Copy U made labels program s q
  spelled : Spelled layout.symbols bytes s m i

theorem Copy.fields {s q : Statement} (copy : Copy U made labels program s q) :
    q.op = s.op ∧ q.pc = s.pc ∧ q.size = s.size ∧ q.label = s.label := by
  cases copy <;> exact ⟨rfl, rfl, rfl, rfl⟩

theorem isInstruction_op {s q : Statement} (op : q.op = s.op) :
    isInstruction q = isInstruction s := by
  unfold isInstruction
  rw [op]

theorem size_of_instruction {start stop : Nat} (follows : Follows U start program stop)
    {s : Statement} (here : s ∈ program) (isInsn : isInstruction s = true) : s.size = 2 := by
  obtain ⟨op, isOp, plain⟩ := isInstruction_some isInsn
  have sized := follows.sized here
  have other (d : Token) := @notDirective op d plain
  rw [isOp] at sized
  simp only [sizeOf, other opOrg rfl, other opByte rfl, other opWord rfl, Bool.false_eq_true,
    if_false] at sized
  exact (Except.ok.inj sized).symm

section
variable (o : Optimized U labels labels' made free statements program layout layout' bytes bytes')
include o

theorem Optimized.locate {q : Statement} (here : q ∈ program) (isInsn : isInstruction q = true) :
    ∃ k s m i, Located U labels made statements program layout bytes k q s m i := by
  obtain ⟨s, among, copy⟩ := o.copies q here isInsn
  obtain ⟨stop, follows, -⟩ := o.follows
  rw [isInstruction_op copy.fields.1] at isInsn
  obtain ⟨m, i, spelled⟩ := assembled_spelled o.original follows o.printed among isInsn
  obtain ⟨k, at_⟩ := List.mem_iff_getElem?.mp here
  exact ⟨k, s, m, i, at_, (isInstruction_op copy.fields.1).trans isInsn, among, copy, spelled⟩

end

section
variable {k : Nat} {q s : Statement} {m : Mnemonic} {i : Insn}

theorem Located.word (located : Located U labels made statements program layout bytes k q s m i) :
    decode (opcodeAt (loadRom bytes) (BitVec.ofNat 16 q.pc)) = some i := by
  rw [located.copy.fields.2.1]
  exact located.spelled.holds.word

theorem instructionAt_some {q : Statement} (here : q ∈ program) (isInsn : isInstruction q = true) :
    ∃ r, instructionAt program q.pc = some r := by
  apply Option.isSome_iff_exists.mp
  unfold instructionAt
  rw [List.find?_isSome]
  exact ⟨q, List.mem_reverse.mpr here, by rw [isInsn, beq_self_eq_true, Bool.and_self]⟩

theorem Located.insn (located : Located U labels made statements program layout bytes k q s m i) :
    (patchOf U labels' free program bytes).insn q.pc = some i := by
  obtain ⟨r, found⟩ := instructionAt_some (List.mem_of_getElem? located.here) located.isInsn
  show (instructionAt program q.pc).bind _ = _
  rw [found]
  exact located.word

end

theorem Optimized.located
    (o : Optimized U labels labels' made free statements program layout layout' bytes bytes')
    {pc : Nat} {i : Insn} (insn : (patchOf U labels' free program bytes).insn pc = some i) :
    ∃ k q s m, q.pc = pc ∧ Located U labels made statements program layout bytes k q s m i := by
  obtain ⟨q, found, -⟩ := Option.bind_eq_some_iff.mp insn
  obtain ⟨here, rfl, isInsn⟩ := instructionAt_mem found
  obtain ⟨k, s, m, i', located⟩ := o.locate here isInsn
  have insn' := @Located.insn U labels labels' made free statements program layout bytes
    _ _ _ _ _ located
  obtain rfl : i = i' := Option.some.inj (insn.symm.trans insn')
  exact ⟨k, q, s, m, rfl, located⟩

/-! ### Operands -/

theorem value_number {symbols : List Symbol} {read : Bool} {a : Token} {n : Nat}
    (number : Asm.strtoul a = some n) (small : n ≤ 0xffff) :
    Asm.value symbols read a = .ok n := by
  unfold Asm.value
  rw [number]
  exact if_neg (Nat.not_lt.mpr small)

theorem assembled_addresses {statements : List Statement} {layout : Layout} {bytes : List Byte}
    (assembled : Assembled statements layout bytes) : Asm.Addresses layout.symbols :=
  Asm.layout_addresses (Nat.le_refl _) (fun _ mem => absurd mem List.not_mem_nil)
    (assembled_folds assembled).1

section
variable (o : Optimized U labels labels' made free statements program layout layout' bytes bytes')
include o

theorem Optimized.anchored_value {name : Token} {v : Nat} (anchored : Anchored program name v) :
    Asm.isName (encode name) = true ∧ ∃ n, Asm.value layout'.symbols true (encode name) = .ok n ∧
      n + deletedBefore U labels' free v none program = v := by
  obtain ⟨_, -, follows⟩ := o.follows
  obtain ⟨_, follows'⟩ := o.relaid
  have printed := @relocated_printed U labels' free program o.printed'
  obtain ⟨r, here, label, moved⟩ := @anchored_moves U labels' free program _ follows name v anchored
  have found := (assembled_at o.optimized follows' (fun s inside => (printed s inside).bare)
    (fun s inside => (printed s inside).other) here).2 name label
  have valid := (assembled_addresses o.optimized _ (List.mem_of_find?_eq_some found)).1
  exact ⟨valid, r.pc, Asm.value_label true valid found, moved⟩

/-- What the assembler reads in the operand of a statement: a number, or the address of a
statement. -/
theorem Optimized.value_cases {a : Token} {n : Nat}
    (known : Asm.value layout.symbols true a = .ok n) :
    Asm.strtoul a = some n ∧ n ≤ 0xffff ∨
      Asm.strtoul a = none ∧ ∃ name, a = encode name ∧ Anchored program name n := by
  unfold Asm.value at known
  split at known
  · rename_i m number
    split at known
    · cases known
    · cases known
      exact .inl ⟨number, by omega⟩
  · rename_i number
    split at known
    · rename_i symbol found
      cases known
      obtain ⟨name, same, anchored⟩ := o.anchors symbol (List.mem_of_find?_eq_some found)
      have isName : symbol.name = a :=
        beq_iff_eq.mp (@List.find?_some _ (fun s : Symbol => s.name == a) _ _ found)
      exact .inr ⟨number, name, isName.symm.trans same, anchored⟩
    · cases known

end

/-! ### Fates -/

theorem Rule.fate_isDeleted (rule : Rule) (s : Statement) :
    rule.fate.isDeleted = (rule.image s).isEmpty := by
  cases rule <;> rfl

theorem isInstruction_of_op {s : Statement} {m : Mnemonic} (isM : isOp s m = true) :
    isInstruction s = true := by
  unfold isInstruction
  rw [beq_iff_eq.mp isM]
  cases m <;> rfl

theorem Follows.next {start stop : Nat} (follows : Follows U start program stop) {k : Nat}
    {r t : Statement} (here : program[k]? = some r) (there : program[k + 1]? = some t) :
    t.pc = r.pc + r.size := by
  have next := @Layout.offset_succ _ Statement.size _ _ _ here
  rw [follows.pc here, follows.pc there]
  omega

theorem patch_merged {pc : Nat}
    (merged : (patchOf U labels' free program bytes).fate pc = .merged) :
    ∃ k r t total, program[k]? = some r ∧ program[k + 1]? = some t ∧ t.pc = pc ∧
      isInstruction t = true ∧ folds U free r t = some total := by
  obtain ⟨j, t, there, isInsn, same, taken⟩ := fateFrom_merged merged
  obtain ⟨r, isPrevious, found⟩ := (Option.any_eq_true ..).mp taken
  obtain ⟨total, found⟩ := Option.isSome_iff_exists.mp found
  cases j with
  | zero => cases isPrevious
  | succ k => exact ⟨k, r, t, total, isPrevious, there, same, isInsn, found⟩

theorem patch_notMerged {pc : Nat} (kept : ∀ q ∈ program, q.pc = pc → ¬ Loose free q) :
    (patchOf U labels' free program bytes).fate pc ≠ .merged := by
  intro merged
  obtain ⟨k, r, t, total, -, there, same, -, found⟩ := patch_merged merged
  exact kept t (List.mem_of_getElem? there) same (folds_some found).2.2

theorem Follows.stop {start stop : Nat} (follows : Follows U start program stop) :
    stop = start + total Statement.size program := by
  induction follows with
  | nil => rfl
  | cons _ _ ih => rw [ih, Layout.total_cons, Nat.add_assoc]

theorem layOut_total (pc : Nat) (statements : List Statement) :
    total Statement.size (layOut pc statements) = total Statement.size statements := by
  induction statements generalizing pc with
  | nil => rfl
  | cons s rest ih => rw [layOut, Layout.total_cons, Layout.total_cons, ih]

theorem offset_length {α : Type} (size : α → Nat) (pieces : List α) :
    offset size pieces pieces.length = total size pieces :=
  congrArg (total size) (List.take_length ..)

theorem deletedBefore_le {start stop : Nat} {prev : Option Statement}
    (follows : Follows U start program stop) (v : Nat) :
    deletedBefore U labels free v prev program ≤ deletedBefore U labels free stop prev program := by
  induction follows generalizing prev with
  | nil => exact Nat.le_refl 0
  | @cons s rest stop sized later ih =>
    have fits := later.le
    rw [deletedBefore, deletedBefore]
    refine Nat.add_le_add ?_ ih
    cases isGone : gone U labels free prev s rest.head? with
    | false => rw [Bool.and_false, Bool.and_false]
    | true =>
      have follows := Follows.cons sized later
      have two := (gone_loose isGone).op.elim (size_of_mnemonic follows List.mem_cons_self)
        (size_of_mnemonic follows List.mem_cons_self)
      rw [decide_eq_true (by omega : s.pc < stop)]
      split <;> decide

theorem Spelled.inPlace {q' : Statement} {pc : Nat} {m : Mnemonic} {j : Insn}
    (spelled : Spelled layout'.symbols bytes' q' m j)
    (moved : q'.pc + (patchOf U labels' free program bytes).deleted pc = pc) :
    InPlace (patchOf U labels' free program bytes) bytes' pc j := by
  have place : q'.pc = pc - (patchOf U labels' free program bytes).deleted pc := by omega
  exact ⟨by omega, place ▸ spelled.holds.first, place ▸ spelled.holds.second,
    place ▸ spelled.holds.word⟩

theorem Located.op {k : Nat} {q s : Statement} {m n : Mnemonic} {i : Insn}
    (located : Located U labels made statements program layout bytes k q s m i)
    (isN : isOp q n = true) : m = n := by
  refine mnemonic_of_op located.spelled.op ?_
  unfold isOp at isN ⊢
  rw [← located.copy.fields.1]
  exact isN

theorem means_skip {read : Asm.Reader} {m : Mnemonic} {args : List Token} {i : Insn}
    (means : Means read m args i) (far : 4#16 ∈ i.strides) :
    m ∈ [Mnemonic.se, .sne, .skp, .sknp] := by
  have near : 4#16 ∉ [2#16] := by decide
  cases means with
  | store form _ =>
    simp only [Asm.storeForms, List.mem_cons, Prod.mk.injEq, List.not_mem_nil, or_false] at form
    obtain ⟨-, rfl⟩ | ⟨-, rfl⟩ | ⟨-, rfl⟩ | ⟨-, rfl⟩ | ⟨-, rfl⟩ := form <;> exact absurd far near
  | load form _ =>
    simp only [Asm.loadForms, List.mem_cons, Prod.mk.injEq, List.not_mem_nil, or_false] at form
    obtain ⟨-, rfl⟩ | ⟨-, rfl⟩ | ⟨-, rfl⟩ := form <;> exact absurd far near
  | _ => first | decide | exact absurd far near

theorem Located.isSkip {k : Nat} {q s : Statement} {m : Mnemonic} {i : Insn}
    (located : Located U labels made statements program layout bytes k q s m i)
    (far : 4#16 ∈ i.strides) : isSkip q = true := by
  refine List.any_eq_true.mpr ⟨m, means_skip located.spelled.means far, ?_⟩
  rw [located.copy.fields.1, located.spelled.op]
  exact beq_self_eq_true _

section
variable (o : Optimized U labels labels' made free statements program layout layout' bytes bytes')
include o

theorem Optimized.unique {k j : Nat} {q r : Statement} (here : program[k]? = some q)
    (there : program[j]? = some r) (isInsn : isInstruction q = true)
    (isInsn' : isInstruction r = true) (same : q.pc = r.pc) : k = j := by
  obtain ⟨_, -, follows⟩ := o.follows
  have size := size_of_instruction follows (List.mem_of_getElem? here) isInsn
  have size' := size_of_instruction follows (List.mem_of_getElem? there) isInsn'
  obtain less | equal | greater := Nat.lt_trichotomy k j
  · have ends := follows.ends here there less
    omega
  · exact equal
  · have ends := follows.ends there here greater
    omega

theorem Optimized.instructionAt {k : Nat} {q : Statement} (here : program[k]? = some q)
    (isInsn : isInstruction q = true) : instructionAt program q.pc = some q := by
  obtain ⟨r, found⟩ := instructionAt_some (List.mem_of_getElem? here) isInsn
  obtain ⟨inside, same, isInsn'⟩ := instructionAt_mem found
  obtain ⟨j, there⟩ := List.mem_iff_getElem?.mp inside
  obtain rfl := o.unique here there isInsn isInsn' same.symm
  cases here.symm.trans there
  exact found

theorem Optimized.fate_at {k : Nat} {q : Statement} (here : program[k]? = some q)
    (isInsn : isInstruction q = true) :
    (patchOf U labels' free program bytes).fate q.pc =
      if takesIn U free (previous none program k) q then .merged
      else (ruleAt U labels' free q program[k + 1]?).fate := by
  obtain ⟨_, -, follows⟩ := o.follows
  exact fateFrom_at follows (fun r inside => size_of_instruction follows inside) here isInsn

theorem Optimized.rule {k : Nat} {q : Statement} (here : program[k]? = some q)
    (isInsn : isInstruction q = true)
    (notMerged : (patchOf U labels' free program bytes).fate q.pc ≠ .merged) :
    takesIn U free (previous none program k) q = false ∧
      (patchOf U labels' free program bytes).fate q.pc =
        (ruleAt U labels' free q program[k + 1]?).fate := by
  rw [o.fate_at here isInsn] at notMerged ⊢
  cases taken : takesIn U free (previous none program k) q with
  | true =>
    rw [taken] at notMerged
    exact absurd rfl notMerged
  | false => exact ⟨rfl, rfl⟩

theorem Optimized.deleted_next {k : Nat} {q : Statement} (here : program[k]? = some q)
    (isInsn : isInstruction q = true) :
    (patchOf U labels' free program bytes).deleted (q.pc + 2) =
      (patchOf U labels' free program bytes).deleted q.pc +
        if ((patchOf U labels' free program bytes).fate q.pc).isDeleted then 2 else 0 := by
  obtain ⟨_, -, follows⟩ := o.follows
  have next := @deletedBefore_next U labels' free program entry _ none follows k q here
    (size_of_instruction follows (List.mem_of_getElem? here) isInsn)
  have same : gone U labels' free (previous none program k) q program[k + 1]? =
      ((patchOf U labels' free program bytes).fate q.pc).isDeleted := by
    rw [o.fate_at here isInsn]
    unfold gone takesIn
    cases (previous none program k).any fun r => (folds U free r q).isSome with
    | true => rfl
    | false => exact (Rule.fate_isDeleted _ q).symm
  rw [same] at next
  exact next

theorem Optimized.merges {pc : Nat} {i : Insn}
    (insn : (patchOf U labels' free program bytes).insn pc = some i)
    (merged : (patchOf U labels' free program bytes).fate (pc + 2) = .merged) :
    (patchOf U labels' free program bytes).fate pc = .folded := by
  obtain ⟨j, q, s, m, rfl, located⟩ := o.located insn
  obtain ⟨k, r, t, total, here, there, same, -, found⟩ := patch_merged merged
  obtain ⟨_, -, follows⟩ := o.follows
  obtain ⟨isLd, isAdd, -⟩ := folds_some found
  have isInsn : isInstruction r = true := isInstruction_of_op isLd
  have size := size_of_instruction follows (List.mem_of_getElem? here) isInsn
  have behind := follows.next here there
  obtain rfl := o.unique here located.here isInsn located.isInsn (by omega)
  cases here.symm.trans located.here
  rw [o.fate_at here isInsn]
  have free' : takesIn U free (previous none program k) q = false := by
    unfold takesIn
    cases previous none program k with
    | none => rfl
    | some p =>
      rw [Option.any_some, folds_ld isLd]
      rfl
  rw [free', there, ruleAt_folds found]
  rfl

/-! ### Places -/

theorem Optimized.image {k : Nat} {q r : Statement} (here : program[k]? = some q)
    (free' : takesIn U free (previous none program k) q = false)
    (image : (ruleAt U labels' free q program[k + 1]?).image q = [r]) :
    ∃ q' ∈ (relocated U labels' free program).flatten, q' = { r with pc := q'.pc } ∧
      q'.pc + (patchOf U labels' free program bytes).deleted q.pc = q.pc := by
  obtain ⟨_, -, follows⟩ := o.follows
  have there := @images_rule U labels' free program none (fun _ _ => rfl) k q here
  rw [free', if_neg Bool.false_ne_true, image] at there
  have placed := @place_at entry k _ _ there
  refine ⟨_, List.mem_flatten.mpr ⟨_, List.mem_of_getElem? placed, List.mem_cons_self⟩, rfl, ?_⟩
  have moved := @offset_deleted U labels' free program entry _ none follows (fun _ _ => rfl) k
    (List.getElem?_eq_some_iff.mp here).1.le
  rw [← follows.pc here] at moved
  have old := follows.pc here
  show entry + _ + deletedBefore U labels' free q.pc none program = q.pc
  omega

theorem Optimized.spelled {q' : Statement}
    (here : q' ∈ (relocated U labels' free program).flatten) (isInsn : isInstruction q' = true) :
    ∃ m j, Spelled layout'.symbols bytes' q' m j := by
  obtain ⟨_, follows⟩ := o.relaid
  exact assembled_spelled o.optimized follows (@relocated_printed U labels' free program o.printed')
    here isInsn

theorem Optimized.start : (patchOf U labels' free program bytes).deleted 512 = 0 ∧
    (patchOf U labels' free program bytes).fate 512 ≠ .merged := by
  obtain ⟨_, -, follows⟩ := o.follows
  exact ⟨deletedBefore_above none follows (Nat.le_refl entry), patch_notMerged o.enters⟩

theorem Optimized.skipped {k j : Nat} {q t : Statement} (here : program[k]? = some q)
    (skip : isSkip q = true) (there : program[j]? = some t) (far : t.pc = q.pc + 4) :
    (patchOf U labels' free program bytes).deleted t.pc =
        (patchOf U labels' free program bytes).deleted q.pc ∧
      (patchOf U labels' free program bytes).fate t.pc ≠ .merged := by
  obtain ⟨_, -, follows⟩ := o.follows
  have order {j : Nat} {t : Statement} (there : program[j]? = some t) (far : t.pc = q.pc + 4) :
      k ≤ j := by
    by_contra later
    have back := follows.ordered there here (Nat.le_of_not_le later)
    omega
  constructor
  · obtain ⟨q', t', becomes, becomes', distance⟩ :=
      relocated_distance labels' follows here there (order there far) fun m r low high between =>
        o.skips here skip there (.inr far) low high between
    have moved {k : Nat} {q q' : Statement} (here : program[k]? = some q)
        (becomes : Becomes U labels' free program (relocated U labels' free program) k q q')
        (kept : ¬ Loose free q) :
        q'.pc + (patchOf U labels' free program bytes).deleted q.pc = q.pc := by
      obtain ⟨q'', again, address⟩ := relocated_kept labels' here kept
      cases becomes.unique again
      have moved := @offset_deleted U labels' free program entry _ none follows (fun _ _ => rfl) k
        (List.getElem?_eq_some_iff.mp here).1.le
      have old := follows.pc here
      rw [← old] at moved
      show _ + deletedBefore U labels' free q.pc none program = q.pc
      omega
    have first := moved here becomes (skip_kept skip)
    have second := moved there becomes'
      (o.skips here skip there (.inr far) (order there far) (Nat.le_refl j) there)
    omega
  · apply patch_notMerged
    intro r inside same
    obtain ⟨m, between⟩ := List.mem_iff_getElem?.mp inside
    exact o.skips here skip between (.inr (same.trans far)) (order between (same.trans far))
      (Nat.le_refl m) between

theorem Optimized.shorter (v : Nat) :
    bytes'.length + deletedBefore U labels' free v none program ≤ bytes.length := by
  obtain ⟨stop, follows, follows'⟩ := o.follows
  obtain ⟨stop', relaid⟩ := o.relaid
  have long := (assembled_length o.original follows o.printed).1
  have long' := (assembled_length o.optimized relaid
    (@relocated_printed U labels' free program o.printed')).1
  have whole := @offset_deleted U labels' free program entry stop none follows' (fun _ _ => rfl)
    program.length (Nat.le_refl _)
  have most := @deletedBefore_le U labels' free program entry stop none follows' v
  have size := relaid.stop
  rw [relocated, ← layOut_flatten, layOut_total, Layout.total_flatten] at size
  rw [offset_length, ← follows'.stop, ← images_length labels' free program, offset_length] at whole
  have end' := follows'.stop
  omega

end

/-! ### Operands -/

/-- The last operand of a statement that takes an address: the label of a statement at this
address, or the address as a number, where no instruction is. -/
inductive Target (U : Unicode) (labels' : Labels) (free : Nat → Bool) (program : List Statement)
    (layout' : Layout) (q : Statement) (y : Addr) (b : Token) : Prop where
  | label {n : Nat} (name : Asm.strtoul (encode b) = none) (anchored : Anchored program b y.toNat)
      (known : Asm.value layout'.symbols true (encode b) = .ok n)
      (moved : n + deletedBefore U labels' free y.toNat none program = y.toNat)
  | number (number : Asm.strtoul (encode b) = some y.toNat)
      (nowhere : isReference q = true →
        ∀ r ∈ program, isInstruction r = true → r.pc ≠ y.toNat)

theorem isReference_addressed {y : Addr} {m : Mnemonic} {front : List Token} {i : Insn}
    (addressed : Asm.Addressed y m front i) {q : Statement} {b : Token} (op : q.op = some m.text)
    (args : q.args = front ++ [b]) : isReference q = true := by
  unfold isReference isOp
  rw [op, args]
  cases addressed <;> rfl

section
variable (o : Optimized U labels labels' made free statements program layout layout' bytes bytes')
include o

theorem Optimized.small {s : Statement} {v n : Nat} (refers : Refers U made labels s v)
    (here : s ∈ statements) (isInsn : isInstruction s = true) {front : List Token} {a : Token}
    (args : s.args = front ++ [a]) (known : Asm.value layout.symbols true a = .ok n) : v = n := by
  have resolved := o.resolves s here isInsn a (args ▸ by simp) n known
  have target := refers.target
  unfold Opt.target at target
  rw [args, List.getLast?_concat, Option.bind_some, resolved] at target
  exact (Int.ofNat.inj (Option.some.inj target)).symm

theorem Optimized.operands {k : Nat} {q s : Statement} {m : Mnemonic} {i : Insn}
    (located : Located U labels made statements program layout bytes k q s m i) :
    (i.address = none ∧ q.args = s.args) ∨ ∃ front a b y, s.args = front ++ [a] ∧
      q.args = front ++ [b] ∧ Asm.Addressed y m front i ∧
        Target U labels' free program layout' q y b := by
  have isInsn : isInstruction s = true :=
    (isInstruction_op located.copy.fields.1).symm.trans located.isInsn
  have spelled := located.spelled
  have last := Asm.means_last spelled.means
  cases located.copy with
  | same none =>
    obtain ⟨front, a, y, args, -, addressed, known⟩ | ⟨isByte, -⟩ | ⟨isWord, -⟩ := last
    · refine .inr ⟨front, a, a, y, args, args, addressed, ?_⟩
      have operand : a ∈ q.args := args ▸ by simp
      have plain := spelled.ascii a operand
      obtain ⟨number, -⟩ | ⟨noNumber, name, same, anchored⟩ := o.value_cases known
      · refine .number (plain.symm ▸ number) fun reference r here isInsn' same => ?_
        have parsed := o.numbers q located.among isInsn a operand _ (plain.symm ▸ number)
        have target : Opt.target U labels q = some (y.toNat : Int) := by
          unfold Opt.target
          rw [args, List.getLast?_concat]
          exact o.resolves q located.among isInsn a operand _ known
        have numeric : numericLast U q = true := by
          unfold numericLast
          rw [args, List.getLast?_concat, Option.bind_some, parsed]
          rfl
        -- A number for the address of a statement would have been given a name.
        have made := o.numeric q located.among reference numeric _ target ⟨r, here, isInsn', same⟩
        refine none _ ⟨?_, numeric, target, made⟩
        rw [spelled.op]
        cases m <;> rfl
      · obtain ⟨valid, n, known', moved⟩ := o.anchored_value anchored
        rw [same] at plain
        have plainName : encode name = name := by
          have ascii := ascii_of_encode (Asm.name_ascii valid)
          exact encode_ascii ascii
        have sameName : a = name := same.trans plainName
        subst sameName
        exact .label (Asm.strtoul_name valid) anchored known' moved
    · exact .inl ⟨Asm.address_none (isByte ▸ fun _ => Asm.Operand.noConfusion), rfl⟩
    · exact .inl ⟨Asm.address_none (isWord ▸ fun _ => Asm.Operand.noConfusion), rfl⟩
  | @renamed v name refers anchored =>
    obtain ⟨front, a, args, numeric⟩ := numericLast_last refers.numeric
    have operand : a ∈ s.args := args ▸ by simp
    have isLast : s.args.getLast? = some a := by rw [args, List.getLast?_concat]
    -- Only an address was renamed: a byte is too small, and a keyword is no number.
    obtain ⟨front', a', y, args', -, addressed, known⟩ | ⟨-, small⟩ | ⟨-, keyword⟩ := last
    · obtain ⟨rfl, lasts⟩ := List.append_inj' (args.symm.trans args') rfl
      obtain rfl : a = a' := (List.cons.inj lasts).1
      obtain rfl := o.small refers located.among isInsn args known
      obtain ⟨valid, n, known', moved⟩ := o.anchored_value anchored
      refine .inr ⟨front, a, name, y, args, ?_, addressed,
        .label (Asm.strtoul_name valid) anchored known' moved⟩
      show s.args.dropLast ++ [name] = _
      rw [args, List.dropLast_concat]
    · obtain ⟨n, fits, known⟩ := small a isLast
      have same := o.small refers located.among isInsn args known
      have above := o.above v refers.made
      unfold entry at above
      omega
    · have plain := spelled.ascii a operand
      have noNumber := @parseNumber_keyword U a (plain.symm ▸ keyword a isLast)
      rw [noNumber] at numeric
      cases numeric

theorem Optimized.literal {k : Nat} {q s : Statement} {m : Mnemonic} {i : Insn}
    (located : Located U labels made statements program layout bytes k q s m i)
    {front : List Token} {b : Token} (args : q.args = front ++ [b])
    (numeric : (parseNumber U b).isSome = true) : q.args = s.args := by
  cases located.copy with
  | same none => rfl
  | @renamed v name refers anchored =>
    obtain ⟨-, lasts⟩ := List.append_inj' args rfl
    obtain rfl : name = b := (List.cons.inj lasts).1
    rw [parseNumber_name (o.anchored_value anchored).1] at numeric
    cases numeric

/-! ### What is left of an instruction -/

theorem Optimized.lands {q : Statement} {y z : Addr} {b : Token}
    (target : Target U labels' free program layout' q y b)
    (reference : isReference q = true)
    (known : Asm.value layout'.symbols true (encode b) = .ok z.toNat) :
    Lands (patchOf U labels' free program bytes) y z := by
  intro some
  cases target with
  | label _ anchored known' moved =>
    obtain rfl := Except.ok.inj (known'.symm.trans known)
    exact ⟨moved, patch_notMerged (o.guards _ _ anchored)⟩
  | number _ nowhere =>
    obtain ⟨i, insn⟩ := Option.isSome_iff_exists.mp some
    obtain ⟨k, q, s, m, same, located⟩ := o.located insn
    exact absurd same (nowhere reference q (List.mem_of_getElem? located.here) located.isInsn)

theorem Optimized.displaced {k : Nat} {q s : Statement} {m : Mnemonic} {y z : Addr} {b : Token}
    (located : Located U labels made statements program layout bytes k q s m (.ldI y))
    (args : q.args = [wordI, b]) (target : Target U labels' free program layout' q y b)
    (known : Asm.value layout'.symbols true (encode b) = .ok z.toNat) :
    z.toNat + (patchOf U labels' free program bytes).displacement q.pc = y.toNat := by
  have shape : (patchOf U labels' free program bytes).displacement q.pc =
      if namesLabel q then deletedBefore U labels' free y.toNat none program else 0 := by
    unfold patchOf
    dsimp only
    rw [o.instructionAt located.here located.isInsn, located.word]
  have isName : namesLabel q = (Asm.strtoul (encode b)).isNone := by
    unfold namesLabel
    rw [args]
    rfl
  rw [shape, isName]
  cases target with
  | label name _ known' moved =>
    obtain rfl := Except.ok.inj (known'.symm.trans known)
    rw [name]
    exact moved
  | number number _ =>
    have bound := y.isLt
    have known' := @value_number layout'.symbols true _ _ number (by omega)
    rw [number]
    exact Except.ok.inj (known.symm.trans known')

theorem Optimized.plain : Asm.Plain (Asm.value layout.symbols true) ∧
    Asm.Plain (Asm.value layout'.symbols true) :=
  ⟨Asm.value_plain (assembled_addresses o.original),
    Asm.value_plain (assembled_addresses o.optimized)⟩

theorem Optimized.stays {k : Nat} {q s q' : Statement} {m m' : Mnemonic} {i j : Insn}
    (located : Located U labels made statements program layout bytes k q s m i)
    (spelled : Spelled layout'.symbols bytes' q' m' j) (op : q'.op = q.op)
    (args : q'.args = q.args) : Stays (patchOf U labels' free program bytes) q.pc i j := by
  have isM : isOp q m = true := by
    unfold isOp
    rw [located.copy.fields.1, located.spelled.op]
    exact beq_self_eq_true _
  have isM' : isOp q' m = true := by
    unfold isOp at isM ⊢
    rw [op]
    exact isM
  obtain rfl := mnemonic_of_op spelled.op isM'
  have means := spelled.means
  have ascii := spelled.ascii
  rw [args] at means ascii
  obtain ⟨none, same⟩ | ⟨front, a, b, y, -, shape, addressed, target⟩ := o.operands located
  · rw [same] at means
    obtain ⟨plain, plain'⟩ := o.plain
    have still := located.spelled.means.mono fun a inside n small known => by
      have number := plain a n (small none) known
      have fits := small none
      exact @value_number layout'.symbols true _ _ number (by omega)
    obtain rfl := means.unique plain' still
    exact .same none
  · rw [shape] at means
    obtain ⟨z, known, rfl⟩ := addressed.other means
    have operand : b ∈ q.args := shape ▸ by simp
    rw [← ascii b operand] at known
    have reference := isReference_addressed addressed (beq_iff_eq.mp isM) shape
    cases addressed with
    | jp => exact .jp (o.lands target reference known)
    | jpV0 => exact .jpV0
    | call => exact .call (o.lands target reference known)
    | ldI => exact .ldI (o.displaced located shape target known)

theorem Optimized.behind {k : Nat} {q t : Statement} (here : program[k]? = some q)
    (isInsn : isInstruction q = true) (there : program[k + 1]? = some t)
    (isInsn' : isInstruction t = true) : ∃ s m i, t.pc = q.pc + 2 ∧
      Located U labels made statements program layout bytes (k + 1) t s m i ∧
        (patchOf U labels' free program bytes).insn (q.pc + 2) = some i := by
  obtain ⟨_, -, follows⟩ := o.follows
  have behind := follows.next here there
  rw [size_of_instruction follows (List.mem_of_getElem? here) isInsn] at behind
  obtain ⟨j, s, m, i, located⟩ := o.locate (List.mem_of_getElem? there) isInsn'
  obtain rfl := o.unique there located.here isInsn' isInsn' rfl
  exact ⟨s, m, i, behind, located, behind ▸ located.insn⟩

theorem Optimized.numbers_of {k : Nat} {q s : Statement} {m : Mnemonic} {i : Insn}
    (located : Located U labels made statements program layout bytes k q s m i) :
    Numbers U s.args := by
  have isInsn := (isInstruction_op located.copy.fields.1).symm.trans located.isInsn
  intro a inside n number
  rw [← located.spelled.ascii a inside] at number
  exact o.numbers s located.among isInsn a inside n number

theorem Optimized.replaced_folded {k total' : Nat} {q s t : Statement} {m : Mnemonic} {i : Insn}
    (located : Located U labels made statements program layout bytes k q s m i)
    (free' : takesIn U free (previous none program k) q = false)
    (there : program[k + 1]? = some t) (found : folds U free q t = some total')
    (isRule : ruleAt U labels' free q program[k + 1]? = .fold total') :
    Replaced (patchOf U labels' free program bytes) bytes' q.pc .folded i := by
  obtain ⟨isLd, isAdd, -⟩ := folds_some found
  obtain ⟨a, b, d, n, n', args, args', register, first, second, rfl⟩ := folds_arguments found
  obtain ⟨s', m', j, behind, located', insn⟩ :=
    o.behind located.here located.isInsn there (isInstruction_of_op isAdd)
  obtain rfl := located.op isLd
  obtain rfl := located'.op isAdd
  have own := o.literal located (show q.args = [a] ++ [b] from args) (by rw [first]; rfl)
  have own' := o.literal located' (show t.args = [a] ++ [d] from args') (by rw [second]; rfl)
  obtain ⟨q', inside, shape, moved⟩ := o.image located.here free' (by rw [isRule]; rfl)
  obtain ⟨m, j', spelled⟩ := o.spelled inside (by rw [shape]; rfl)
  have isLd' : isOp q' .ld = true := by rw [shape]; rfl
  obtain rfl := mnemonic_of_op spelled.op isLd'
  have means := located.spelled.means
  have means' := located'.spelled.means
  have sum := spelled.means
  have numbers := o.numbers_of located
  have numbers' := o.numbers_of located'
  rw [← own, args] at means numbers
  rw [← own', args'] at means' numbers'
  rw [shape, args] at sum
  obtain ⟨plain, plain'⟩ := o.plain
  obtain ⟨x, kk, ll, rfl, rfl, rfl⟩ :=
    means_sum plain plain' numbers numbers' register first second means means' sum
  refine .folded (spelled.inPlace moved) insn ?_
  rw [← behind, o.fate_at there (isInstruction_of_op isAdd)]
  have taken : takesIn U free (previous none program (k + 1)) t = true := by
    show Option.any _ program[k]? = true
    rw [located.here, Option.any_some, found]
    rfl
  rw [taken]
  rfl

theorem Optimized.replaced_tailCall {k : Nat} {q s t : Statement} {m : Mnemonic} {i : Insn}
    (located : Located U labels made statements program layout bytes k q s m i)
    (free' : takesIn U free (previous none program k) q = false)
    (there : program[k + 1]? = some t) (tail : isTailCall U labels' q t = true)
    (isRule : ruleAt U labels' free q program[k + 1]? = .tailCall) :
    Replaced (patchOf U labels' free program bytes) bytes' q.pc .tailCall i := by
  simp only [isTailCall, Bool.and_eq_true] at tail
  obtain ⟨⟨⟨isCall, isRet⟩, -⟩, -⟩ := tail
  obtain ⟨s', m', j, -, located', insn⟩ :=
    o.behind located.here located.isInsn there (isInstruction_of_op isRet)
  obtain rfl := located.op isCall
  obtain rfl := located'.op isRet
  obtain rfl : j = .ret := by
    have means := located'.spelled.means
    generalize s'.args = args at means
    cases means with
    | ret => rfl
    | alu form _ _ => simp [Asm.aluForms] at form
    | shift form _ => simp [Asm.shiftForms] at form
  obtain ⟨q', inside, shape, moved⟩ := o.image located.here free' (by rw [isRule]; rfl)
  obtain ⟨m, j', spelled⟩ := o.spelled inside (by rw [shape]; rfl)
  have isJp : isOp q' .jp = true := by rw [shape]; rfl
  obtain rfl := mnemonic_of_op spelled.op isJp
  obtain ⟨none, -⟩ | ⟨front, a, b, y, -, args, addressed, target⟩ := o.operands located
  · have means := located.spelled.means
    generalize s.args = args at means
    cases means with
    | call => cases none
    | alu form _ _ => simp [Asm.aluForms] at form
    | shift form _ => simp [Asm.shiftForms] at form
  · have reference := isReference_addressed addressed (beq_iff_eq.mp isCall) args
    cases addressed with
    | call =>
      have means := spelled.means
      have ascii := spelled.ascii
      rw [shape, args] at means ascii
      obtain ⟨z, known, rfl⟩ := (Asm.Addressed.jp : Asm.Addressed y .jp [] (.jp y)).other means
      rw [← ascii b (by simp)] at known
      exact .tailCall (spelled.inPlace moved) (o.lands target reference known) insn

theorem Optimized.replaced_noop {k : Nat} {q s : Statement} {m : Mnemonic} {i : Insn}
    (located : Located U labels made statements program layout bytes k q s m i)
    (noop : isNoop U q = true) :
    Replaced (patchOf U labels' free program bytes) bytes' q.pc .noop i := by
  have isLd : isOp q .ld = true ∨ isOp q .add = true := noop_op noop
  obtain ⟨-, own⟩ | ⟨front, a, b, y, -, -, addressed, -⟩ := o.operands located
  · have means := located.spelled.means
    have numbers := o.numbers_of located
    rw [← own] at means numbers
    obtain ⟨x, rfl⟩ | ⟨x, rfl⟩ | ⟨y, rfl⟩ := means_noop o.plain.1 numbers noop
      (located.copy.fields.1.trans located.spelled.op) means
    · exact .move x
    · exact .add x
    · exact .address y
  · obtain rfl | rfl : m = .ld ∨ m = .add := isLd.imp located.op located.op
    · cases addressed with
      | ldI => exact .address y
    · cases addressed

theorem Optimized.replaced {pc : Nat} {i : Insn}
    (insn : (patchOf U labels' free program bytes).insn pc = some i)
    (notMerged : (patchOf U labels' free program bytes).fate pc ≠ .merged) :
    Replaced (patchOf U labels' free program bytes) bytes' pc
      ((patchOf U labels' free program bytes).fate pc) i := by
  obtain ⟨k, q, s, m, rfl, located⟩ := o.located insn
  obtain ⟨free', isFate⟩ := o.rule located.here located.isInsn notMerged
  rw [isFate]
  cases isRule : ruleAt U labels' free q program[k + 1]? with
  | fold total =>
    obtain ⟨t, there, found⟩ := ruleAt_fold isRule
    exact o.replaced_folded located free' there found isRule
  | tailCall =>
    obtain ⟨t, there, tail⟩ := ruleAt_tailCall isRule
    exact o.replaced_tailCall located free' there tail isRule
  | noop => exact o.replaced_noop located (ruleAt_noop isRule)
  | overwritten =>
    obtain ⟨t, there, overwritten⟩ := ruleAt_overwritten isRule
    obtain ⟨s', m', j, -, -, next⟩ := o.behind located.here located.isInsn there
      (isInstruction_of_op (overwritten_next overwritten))
    exact .overwritten next
  | keep =>
    obtain ⟨q', inside, shape, moved⟩ := o.image located.here free' (by rw [isRule]; rfl)
    have isInsn' : isInstruction q' = true := by
      rw [shape]
      exact located.isInsn
    obtain ⟨m', j, spelled⟩ := o.spelled inside isInsn'
    exact .kept (spelled.inPlace moved)
      (o.stays located spelled (by rw [shape]) (by rw [shape]))

theorem Optimized.patched : Patched (patchOf U labels' free program bytes) bytes bytes' where
  fits := by
    obtain ⟨stop, follows, -⟩ := o.follows
    exact (assembled_length o.original follows o.printed).2
  shrinks v := by
    have none := Nat.le_of_add_right_le (o.shorter 0)
    show bytes'.length + (patchOf U labels' free program bytes).displacement v ≤ _
    unfold patchOf
    dsimp only
    split
    · split
      · exact o.shorter _
      · exact none
    · exact none
  inside pc i insn := by
    obtain ⟨k, q, s, m, rfl, located⟩ := o.located insn
    rw [located.copy.fields.2.1]
    exact ⟨located.spelled.holds.first, located.spelled.holds.second⟩
  word pc i insn := by
    obtain ⟨k, q, s, m, rfl, located⟩ := o.located insn
    exact located.word
  start := o.start
  next pc i insn := by
    obtain ⟨k, q, s, m, rfl, located⟩ := o.located insn
    exact o.deleted_next located.here located.isInsn
  merges pc i insn merged := o.merges insn merged
  skips pc i insn far some := by
    obtain ⟨k, q, s, m, rfl, located⟩ := o.located insn
    obtain ⟨i', insn'⟩ := Option.isSome_iff_exists.mp some
    obtain ⟨j, t, s', m', far', located'⟩ := o.located insn'
    rw [← far']
    exact o.skipped located.here (located.isSkip far) located'.here far'
  replaced pc i insn notMerged := o.replaced insn notMerged

end

end

end ChipEight.Opt
