import ChipEight.Asm.Readings
import ChipEight.Opt.Assembled
import ChipEight.Opt.Deletion
import ChipEight.Opt.Symbolize

/-! Declared data in the optimized ROM.

No `.BYTE` or `.WORD` is deleted or merged, but the last operand of one may have become a
label. Such a word keeps its value just if nothing is deleted before the statement it names.
-/

set_option autoImplicit false

namespace ChipEight.Opt

open Asm (Text Token Mnemonic Layout Symbol)
open Layout (total offset)

/-! ## Data statements -/

def isData (op : Option Token) : Bool := op == some opByte || op == some opWord

def dataStatements (statements : List Statement) : List Statement :=
  statements.filter fun s => isData s.op

/-- Every operand is a number to the assembler. -/
def Literal (s : Statement) : Prop := ∀ a ∈ s.args, (Asm.strtoul (encode a)).isSome = true

/-- The data statements in their order have the same bytes, where they are literal. -/
def KeepsData (old new : List Statement) (bytes bytes' : List Byte) : Prop :=
  List.Forall₂ (fun s s' => Literal s → bytesOf bytes' s' = bytesOf bytes s)
    (dataStatements old) (dataStatements new)

section
variable {U : Unicode} {labels : Labels} {free : Nat → Bool}

/-- What becomes of a statement in the list of images. -/
def Left (U : Unicode) (labels : Labels) (free : Nat → Bool) (s : Statement)
    (image : List Statement) : Prop :=
  (image = [] ∧ Loose free s) ∨ ∃ s' next, image = [s'] ∧ Image U labels free s next s'

theorem relocated_left (old : List Statement) :
    List.Forall₂ (Left U labels free) old (relocated U labels free old) := by
  rw [List.forall₂_iff_get]
  have length : old.length = (relocated U labels free old).length :=
    ((place_length entry _).trans (images_length labels free old)).symm
  refine ⟨length, fun k short short' => ?_⟩
  have there : (relocated U labels free old)[k]? =
      some ((relocated U labels free old).get ⟨k, short'⟩) := List.getElem?_eq_getElem short'
  obtain ⟨gone, loose⟩ | ⟨s', becomes, -⟩ :=
    @relocated_at U free old labels k _ (List.getElem?_eq_getElem short)
  · exact .inl ⟨Option.some.inj (there.symm.trans gone), loose⟩
  · exact .inr ⟨s', _, Option.some.inj (there.symm.trans becomes.there), becomes.image⟩

theorem Left.label {s : Statement} {image : List Statement} (left : Left U labels free s image) :
    image.filterMap Statement.label = s.label.toList := by
  obtain ⟨rfl, loose⟩ | ⟨s', _, rfl, image'⟩ := left
  · rw [loose.label]
    rfl
  · rw [← image'.label]
    cases label : s'.label with
    | none => rw [List.filterMap_cons_none label]; rfl
    | some name => rw [List.filterMap_cons_some label]; rfl

theorem Left.data {s : Statement} {image : List Statement} (left : Left U labels free s image) :
    List.Forall₂ (fun s s' => s' = { s with pc := s'.pc }) (dataStatements [s])
      (dataStatements image) := by
  have other {m : Mnemonic} (isM : isOp s m = true) : isData s.op = false := by
    rw [show s.op = some m.text by simpa [isOp] using isM]
    cases m <;> rfl
  have none (silent : isData s.op = false) : dataStatements [s] = [] := by
    rw [dataStatements, List.filter_cons_of_neg (by rw [silent]; exact Bool.false_ne_true)]
    rfl
  have mnemonic (m : Mnemonic) : isData (some m.text) = false := by
    cases m <;> rfl
  obtain ⟨rfl, loose⟩ | ⟨s', next, rfl, image'⟩ := left
  · rw [none (loose.op.elim other other)]
    exact .nil
  · cases image' with
    | same pc =>
      unfold dataStatements
      rw [List.filter_cons, List.filter_cons]
      split
      · exact .cons rfl .nil
      · exact .nil
    | folded pc _ found =>
      rw [none (other (folds_some found).1)]
      exact .nil
    | tailCall pc _ tail =>
      simp only [isTailCall, Bool.and_eq_true] at tail
      rw [none (other tail.1.1.1)]
      exact .nil

theorem left_labels {old : List Statement} {new : List (List Statement)}
    (left : List.Forall₂ (Left U labels free) old new) :
    new.flatten.filterMap Statement.label = old.filterMap Statement.label := by
  induction left with
  | nil => rfl
  | @cons s image _ _ here _ ih =>
    rw [List.flatten_cons, List.filterMap_append, ih, here.label]
    cases label : s.label with
    | none => rw [List.filterMap_cons_none label]; rfl
    | some name => rw [List.filterMap_cons_some label]; rfl

theorem left_data {old : List Statement} {new : List (List Statement)}
    (left : List.Forall₂ (Left U labels free) old new) :
    List.Forall₂ (fun s s' => s' = { s with pc := s'.pc }) (dataStatements old)
      (dataStatements new.flatten) := by
  induction left with
  | nil => exact .nil
  | @cons s image rest _ here _ ih =>
    have split (xs ys : List Statement) :
        dataStatements (xs ++ ys) = dataStatements xs ++ dataStatements ys := List.filter_append ..
    rw [List.flatten_cons, split, show s :: rest = [s] ++ rest from rfl, split]
    exact List.rel_append here.data ih

end

/-! ## Deleted bytes -/

section
variable (U : Unicode) (labels : Labels) (free : Nat → Bool)

/-- A statement is deleted, or merged into the one before it. -/
def gone (prev : Option Statement) (s : Statement) (next : Option Statement) : Bool :=
  prev.any (fun r => (folds U free r s).isSome) ||
    ((ruleAt U labels free s next).image s).isEmpty

/-- The bytes of the deleted statements before an address. -/
def deletedBefore (v : Nat) (prev : Option Statement) : List Statement → Nat
  | [] => 0
  | s :: rest =>
    (if s.pc < v && gone U labels free prev s rest.head? then 2 else 0) +
      deletedBefore v (some s) rest

end

section
variable {U : Unicode} {labels : Labels} {free : Nat → Bool}

theorem deletedBefore_above {v pc stop : Nat} {statements : List Statement}
    (prev : Option Statement) (follows : Follows U pc statements stop) (above : v ≤ pc) :
    deletedBefore U labels free v prev statements = 0 := by
  induction follows generalizing prev with
  | nil => rfl
  | @cons s rest stop _ _ ih =>
    have notBelow : (decide (s.pc < v)) = false := decide_eq_false (by omega)
    rw [deletedBefore, notBelow, Bool.false_and, if_neg Bool.false_ne_true, ih _ (by omega)]

theorem Follows.tail {start stop : Nat} {s : Statement} {rest : List Statement}
    (follows : Follows U start (s :: rest) stop) :
    s.pc = start ∧ Follows U (start + s.size) rest stop := by
  cases follows with
  | cons _ later => exact ⟨rfl, later⟩

/-- Where nothing behind an address is counted, a statement that is not taken in counts with its
image for its size. -/
theorem image_deleted {s : Statement} {prev next : Option Statement} {v : Nat}
    (instruction : ∀ m, isOp s m = true → s.size = 2)
    (first : prev.any (fun r => (folds U free r s).isSome) = false) (below : s.pc + s.size ≤ v) :
    total Statement.size ((ruleAt U labels free s next).image s) +
      (if s.pc < v && gone U labels free prev s next then 2 else 0) = s.size := by
  rw [gone, first, Bool.false_or]
  obtain ⟨empty, loose⟩ | ⟨s', image, left⟩ := @ruleAt_image U labels free s next
  · have size : s.size = 2 := loose.op.elim (instruction .ld) (instruction .add)
    have before : decide (s.pc < v) = true := decide_eq_true (by omega)
    rw [empty, before, List.isEmpty_nil, Bool.and_self, if_pos rfl, Layout.total_nil, size]
  · rw [image, List.isEmpty_cons, Bool.and_false, if_neg Bool.false_ne_true, Layout.total_cons,
      Layout.total_nil, left.size instruction]
    rfl

theorem offset_deleted {statements : List Statement} {pc stop : Nat} {prev : Option Statement}
    (follows : Follows U pc statements stop)
    (first : ∀ s, statements.head? = some s → prev.any (fun r => (folds U free r s).isSome) = false)
    {k : Nat} (within : k ≤ statements.length) :
    offset (total Statement.size) (images U labels free statements) k +
      deletedBefore U labels free (pc + offset Statement.size statements k) prev statements =
        offset Statement.size statements k := by
  -- Along the rewrite: a fold takes two statements in at once, the other rules one.
  induction statements using images.induct U labels free generalizing pc prev k with
  | case1 =>
    obtain rfl := Nat.le_zero.mp within
    rfl
  | case2 s =>
    cases k with
    | zero => exact (Nat.zero_add _).trans (deletedBefore_above prev follows (Nat.le_refl _))
    | succ k =>
      obtain rfl : k = 0 := Nat.le_zero.mp (Nat.le_of_succ_le_succ within)
      have low := follows.tail.1
      have whole := @image_deleted U labels free s prev none (pc + (s.size + 0))
        (fun m => size_of_mnemonic follows List.mem_cons_self) (first s rfl) (by omega)
      rw [images, Layout.offset_cons, Layout.offset_cons, Layout.offset_zero, Layout.offset_zero,
        deletedBefore, List.head?_nil, deletedBefore]
      omega
  | case3 s t rest merged kept =>
    cases k with
    | zero => exact (Nat.zero_add _).trans (deletedBefore_above prev follows (Nat.le_refl _))
    | succ k =>
      have sizes {q : Statement} (inside : q ∈ s :: t :: rest) (m : Mnemonic)
          (isM : isOp q m = true) : q.size = 2 := size_of_mnemonic follows inside isM
      obtain ⟨low, later⟩ := follows.tail
      have shorter : k ≤ (t :: rest).length := Nat.le_of_succ_le_succ within
      have whole := @image_deleted U labels free s prev (some t)
        (pc + (s.size + offset Statement.size (t :: rest) k)) (sizes List.mem_cons_self)
        (first s rfl) (by omega)
      have address (n : Nat) : pc + (s.size + n) = pc + s.size + n := (Nat.add_assoc ..).symm
      rw [images, deletedBefore, List.head?_cons, Layout.offset_cons, Layout.offset_cons, address]
      rw [address] at whole
      cases isRule : ruleAt U labels free s (some t) with
      | fold total =>
        rw [isRule] at whole
        obtain ⟨t', same, found⟩ := ruleAt_fold isRule
        cases same
        obtain ⟨-, isAdd, -⟩ := folds_some found
        cases k with
        | zero =>
          have start : offset Statement.size (t :: rest) 0 = 0 := Layout.offset_zero ..
          rw [start, Nat.add_zero (pc + s.size)] at whole ⊢
          rw [Layout.offset_zero, deletedBefore_above _ later (Nat.le_refl _)]
          omega
        | succ k =>
          obtain ⟨start, latest⟩ := later.tail
          have second := sizes (List.mem_cons_of_mem _ List.mem_cons_self) .add isAdd
          have ih := @merged (pc + s.size + t.size) (some t) latest
            (fun q _ => by rw [Option.any_some, folds_add isAdd]; rfl) k
            (Nat.le_of_succ_le_succ shorter)
          have address' (n : Nat) : pc + s.size + (t.size + n) = pc + s.size + t.size + n :=
            (Nat.add_assoc ..).symm
          rw [Layout.offset_cons, address'] at whole
          rw [Layout.offset_cons, Layout.offset_cons, Layout.total_nil, address', deletedBefore]
          -- The second statement of the fold is the one that is gone.
          have goes : (decide (t.pc < pc + s.size + t.size + offset Statement.size rest k) &&
              gone U labels free (some s) t rest.head?) = true := by
            rw [decide_eq_true (by omega), gone, Option.any_some, found]
            rfl
          rw [goes, if_pos rfl]
          omega
      | _ =>
        rw [isRule] at whole
        have ih := @kept (pc + s.size) (some s) later (fun q isHead => by
          cases isHead
          rw [Option.any_some]
          cases found : folds U free s t with
          | none => rfl
          | some total =>
            rw [ruleAt_folds found] at isRule
            cases isRule) k shorter
        dsimp only
        omega

end

/-! ## Emission -/

/-- The largest operand of a data statement, and the bytes of one. -/
def maxOf (op : Option Token) : Nat := if op == some opByte then 0xff else 0xffff
def emitOf (op : Option Token) (v : Nat) : List Byte :=
  if op == some opByte then Asm.byteOf v else Asm.wordOf v

theorem emitOf_injective {op : Option Token} {v w : Nat} (small : v ≤ maxOf op)
    (small' : w ≤ maxOf op) : emitOf op v = emitOf op w ↔ v = w := by
  refine ⟨fun same => ?_, fun same => congrArg _ same⟩
  unfold emitOf at same
  unfold maxOf at small small'
  split at same
  · rename_i isByte
    rw [if_pos isByte] at small small'
    exact Asm.byteOf_injective small small' same
  · rename_i isWord
    rw [if_neg isWord] at small small'
    exact Asm.wordOf_injective small small' same

theorem data_emits {read : Asm.Reader} {s : Statement} (data : isData s.op = true) {pc size : Nat}
    {out : List Byte} (emitted : Asm.lineSize read pc s.toLine.statement = .ok (size, out)) :
    ∃ vs, List.Forall₂ (fun t v => read (encode t) = .ok v ∧ v ≤ maxOf s.op) s.args vs ∧
      out = (vs.map (emitOf s.op)).flatten := by
  have operands {max : Nat} {problem : Nat → Asm.Problem} {emit : Nat → List Byte}
      (written : Asm.dataBytes read max problem emit (s.args.map encode) = .ok out) :
      ∃ vs, List.Forall₂ (fun t v => read (encode t) = .ok v ∧ v ≤ max) s.args vs ∧
        out = (vs.map emit).flatten := by
    obtain ⟨vs, reads, same⟩ := Asm.dataBytes_ok.mp written
    exact ⟨vs, List.forall₂_map_left_iff.mp reads, same⟩
  have shape {op : Token} (isOp : s.op = some op) :
      s.toLine.statement = encode op :: s.args.map encode := by
    unfold Statement.toLine encodeLine Statement.words
    rw [isOp]
    rfl
  unfold isData at data
  obtain isByte | isWord := Bool.or_eq_true_iff.mp data
  · have op := beq_iff_eq.mp isByte
    rw [shape op, show encode opByte = Asm.dirByte from rfl] at emitted
    simp only [Asm.lineSize, show (Asm.dirByte == Asm.dirOrg) = false by decide, beq_self_eq_true,
      Bool.false_eq_true, if_false, if_true] at emitted
    split at emitted
    · cases emitted
    · obtain ⟨out', written, same⟩ := Asm.bind_ok.mp emitted
      cases same
      obtain ⟨vs, reads, same⟩ := operands written
      rw [op]
      exact ⟨vs, reads, same⟩
  · have op := beq_iff_eq.mp isWord
    rw [shape op, show encode opWord = Asm.dirWord from rfl] at emitted
    simp only [Asm.lineSize, show (Asm.dirWord == Asm.dirOrg) = false by decide,
      show (Asm.dirWord == Asm.dirByte) = false by decide, beq_self_eq_true, Bool.false_eq_true,
      if_false, if_true] at emitted
    split at emitted
    · cases emitted
    · obtain ⟨out', written, same⟩ := Asm.bind_ok.mp emitted
      cases same
      obtain ⟨vs, reads, same⟩ := operands written
      rw [op]
      exact ⟨vs, reads, same⟩

theorem value_literal {symbols : List Symbol} {resolve : Bool} {a : Token} {n v : Nat}
    (literal : Asm.strtoul a = some n) (read : Asm.value symbols resolve a = .ok v) : v = n := by
  unfold Asm.value at read
  rw [literal] at read
  dsimp only at read
  split at read
  · cases read
  · exact (Except.ok.inj read).symm

theorem literals_agree {symbols symbols' : List Symbol} {args : List Token} {vs vs' : List Nat}
    {max : Nat} (literal : ∀ a ∈ args, (Asm.strtoul (encode a)).isSome = true)
    (reads : List.Forall₂ (fun t v => Asm.value symbols true (encode t) = .ok v ∧ v ≤ max) args vs)
    (reads' : List.Forall₂ (fun t v => Asm.value symbols' true (encode t) = .ok v ∧ v ≤ max)
      args vs') : vs = vs' := by
  induction reads generalizing vs' with
  | nil =>
    cases reads'
    rfl
  | @cons t v _ _ here _ ih =>
    cases reads' with
    | cons here' rest' =>
      obtain ⟨n, number⟩ := Option.isSome_iff_exists.mp (literal t List.mem_cons_self)
      rw [value_literal number here.1, value_literal number here'.1,
        ih (fun a later => literal a (List.mem_cons_of_mem _ later)) rest']

/-! ## The optimized program -/

theorem layOut_items (pc : Nat) (statements : List Statement) :
    (layOut pc statements).flatMap Statement.items = statements.flatMap Statement.items := by
  induction statements generalizing pc with
  | nil => rfl
  | cons s rest ih =>
    rw [layOut, List.flatMap_cons, List.flatMap_cons, ih]
    rfl

theorem optimizePeepholes_ok {U : Unicode} {statements out : List Statement} {labels : Labels}
    {changes : List Change}
    (returned : optimizePeepholes U statements labels = .ok (out, changes)) :
    ∃ a, analyze U (symbolize U statements labels).2 (symbolize U statements labels).1 = some a ∧
      relocationHazards U (symbolize U statements labels).1 (symbolize U statements labels).2 a =
        [] ∧
      out = (rewrite U (symbolize U statements labels).2
        (unpinned U (symbolize U statements labels).1 (symbolize U statements labels).2 a)
        (symbolize U statements labels).1).1 := by
  unfold optimizePeepholes at returned
  dsimp only at returned
  split at returned
  · cases returned
  · rename_i a analyzed
    split at returned
    · rename_i empty
      have same := congrArg Prod.fst (Except.ok.inj returned)
      exact ⟨a, analyzed, List.isEmpty_iff.mp empty, same.symm⟩
    · cases returned

/-- Of a word that became a label, nothing is deleted before the statement it names. -/
def Unmoved (U : Unicode) (statements : List Statement) (labels : Labels) (a : Analysis) : Prop :=
  ∀ s ∈ dataStatements statements, Literal s →
    ∀ v, Refers U (generated U statements labels) labels s v → ∀ last n,
      s.args.getLast? = some last → Asm.strtoul (encode last) = some n →
        n + deletedBefore U (symbolize U statements labels).2
          (unpinned U (symbolize U statements labels).1 (symbolize U statements labels).2 a) v none
          (symbolize U statements labels).1 = v

section
variable {U : Unicode} {text : Text} {statements out : List Statement} {labels : Labels}
  {changes : List Change} {layout layout' : Layout} {bytes bytes' : List Byte}

theorem forall₂_iff {α β : Type} {P R : α → β → Prop} {C : α → Prop} {xs : List α} {ys : List β}
    (pairs : List.Forall₂ P xs ys) (each : ∀ x ∈ xs, ∀ y ∈ ys, P x y → (R x y ↔ C x)) :
    List.Forall₂ R xs ys ↔ ∀ x ∈ xs, C x := by
  induction pairs with
  | nil => exact ⟨fun _ => nofun, fun _ => .nil⟩
  | @cons x y xs ys here _ ih =>
    have later := ih fun x' inside y' inside' =>
      each x' (List.mem_cons_of_mem _ inside) y' (List.mem_cons_of_mem _ inside')
    rw [List.forall₂_cons, each x List.mem_cons_self y List.mem_cons_self here, later,
      List.forall_mem_cons]

theorem forall₂_comp {α β γ : Type} {P : α → β → Prop} {Q : β → γ → Prop} {xs : List α}
    {ys : List β} {zs : List γ} (first : List.Forall₂ P xs ys) (second : List.Forall₂ Q ys zs) :
    List.Forall₂ (fun x z => ∃ y, P x y ∧ Q y z) xs zs := by
  induction first generalizing zs with
  | nil =>
    cases second
    exact .nil
  | cons here _ ih =>
    cases second with
    | cons here' rest => exact .cons ⟨_, here, here'⟩ (ih rest)

theorem anchored_moves {free : Nat → Bool} {program : List Statement} {stop : Nat}
    (follows : Follows U entry program stop) {name : Token} {v : Nat}
    (anchored : Anchored program name v) :
    ∃ r ∈ (relocated U labels free program).flatten, r.label = some name ∧
      r.pc + deletedBefore U labels free v none program = v := by
  obtain ⟨s, inside, label, address⟩ := anchored
  obtain ⟨k, here⟩ := List.mem_iff_getElem?.mp inside
  have kept : ¬ Loose free s := by
    intro loose
    rw [loose.label] at label
    cases label
  obtain ⟨r, becomes, pc⟩ := relocated_kept labels here kept
  refine ⟨r, List.mem_flatten.mpr ⟨_, List.mem_of_getElem? becomes.there, List.mem_cons_self⟩,
    becomes.image.label.trans label, ?_⟩
  have old := follows.pc here
  have moved := @offset_deleted U labels free program entry stop none follows (fun _ _ => rfl) k
    (List.getElem?_eq_some_iff.mp here).1.le
  rw [← old, address] at moved
  omega

theorem copy_emits {program : List Statement} {made : List Nat} {symbols symbols' : List Symbol}
    {s q s' : Statement} (copy : Copy U made labels program s q)
    (moved : s' = { q with pc := s'.pc }) (data : isData s.op = true) (literal : Literal s)
    {size size' : Nat} {written written' : List Byte}
    (emitted : Asm.lineSize (Asm.value symbols true) s.pc s.toLine.statement = .ok (size, written))
    (emitted' : Asm.lineSize (Asm.value symbols' true) s'.pc s'.toLine.statement =
      .ok (size', written')) {shift : Nat → Nat}
    (anchors : ∀ name v, Anchored program name v →
      ∃ n, Asm.value symbols' true (encode name) = .ok n ∧ n + shift v = v) :
    written' = written ↔ ∀ v, Refers U made labels s v → ∀ last n, s.args.getLast? = some last →
      Asm.strtoul (encode last) = some n → n + shift v = v := by
  obtain ⟨vs, reads, rfl⟩ := data_emits data emitted
  have data' : isData s'.op = true := by
    rw [moved]
    cases copy <;> exact data
  obtain ⟨vs', reads', rfl⟩ := data_emits data' emitted'
  cases copy with
  | same none =>
    rw [moved] at reads' ⊢
    rw [literals_agree literal reads reads']
    exact ⟨fun _ v refers => absurd refers (none v), fun _ => rfl⟩
  | @renamed v name refers anchored =>
    -- Only the last operand differs: a number in the source, the label for it in the copy.
    obtain ⟨front, last, args, -⟩ := numericLast_last refers.numeric
    have isLast : s.args.getLast? = some last := by rw [args, List.getLast?_concat]
    obtain ⟨n, number⟩ := Option.isSome_iff_exists.mp (literal last (args ▸ by simp))
    have args' : s'.args = front ++ [name] := by
      rw [moved]
      show s.args.dropLast ++ [name] = _
      rw [args, List.dropLast_concat]
    have op' : s'.op = s.op := by rw [moved]; rfl
    rw [args] at reads
    rw [args', op'] at reads'
    rw [op']
    obtain ⟨values, x, rfl, before, here⟩ := Asm.forall₂_concat reads
    obtain ⟨values', x', rfl, before', here'⟩ := Asm.forall₂_concat reads'
    have same := literals_agree (fun a inside => literal a (args ▸ List.mem_append_left _ inside))
      before before'
    obtain ⟨n', read, shifted⟩ := anchors name v anchored
    have value : x = n := value_literal number here.1
    have value' : x' = n' := Except.ok.inj (here'.1.symm.trans read)
    subst same value value'
    rw [List.map_append, List.map_append, List.flatten_append, List.flatten_append,
      List.append_cancel_left_eq, List.map_singleton, List.map_singleton, List.flatten_singleton,
      List.flatten_singleton, emitOf_injective here'.2 here.2]
    constructor
    · rintro rfl w refers' a m isA isNumber
      cases isLast.symm.trans isA
      cases number.symm.trans isNumber
      rw [refers'.unique refers]
      exact shifted
    · intro unmoved
      have still := unmoved v refers last x isLast number
      omega

/-- A statement that is printed with its words only, and is no `.ORG`. -/
structure Printed (s : Statement) : Prop where
  bare : s.op = none → s.args = []
  other : s.op ≠ some opOrg

theorem Image.printed {free : Nat → Bool} {s s' : Statement} {next : Option Statement}
    (image : Image U labels free s next s') (printed : Printed s) : Printed s' := by
  cases image with
  | same => exact ⟨printed.bare, printed.other⟩
  | folded => exact ⟨nofun, fun isOrg => nomatch Option.some.inj isOrg⟩
  | tailCall => exact ⟨nofun, fun isOrg => nomatch Option.some.inj isOrg⟩

theorem relocated_printed {free : Nat → Bool} {program : List Statement}
    (printed : ∀ s ∈ program, Printed s) :
    ∀ s ∈ (relocated U labels free program).flatten, Printed s := by
  have left := @relocated_left U labels free program
  generalize relocated U labels free program = new at left
  induction left with
  | nil => exact nofun
  | @cons s image _ _ here _ ih =>
    rw [List.flatten_cons, List.forall_mem_append]
    refine ⟨?_, ih fun r later => printed r (List.mem_cons_of_mem _ later)⟩
    obtain ⟨rfl, -⟩ | ⟨s', next, rfl, image'⟩ := here
    · exact nofun
    · rw [List.forall_mem_singleton]
      exact image'.printed (printed s List.mem_cons_self)

theorem symbolize_printed (printed : ∀ s ∈ statements, Printed s) :
    ∀ s ∈ (symbolize U statements labels).1, Printed s := by
  intro r here
  obtain ⟨s, -, rfl⟩ | ⟨s, inside, labels', rfl⟩ := symbolizeFrom_mem here
  · exact ⟨fun _ => rfl, nofun⟩
  · obtain ⟨-, -, op, -, -, length⟩ :=
      @symbolizeOperand_fields U (generated U statements labels) labels labels' s
    have old := printed s inside
    refine ⟨fun none => ?_, op ▸ old.other⟩
    rw [op] at none
    rw [old.bare none] at length
    exact List.eq_nil_of_length_eq_zero length

theorem keepsData_copies {free : Nat → Bool} {made : List Nat} {labels' : Labels}
    {program : List Statement} {stop stop' stop'' : Nat} (follows : Follows U entry statements stop)
    (printed : ∀ s ∈ statements, Printed s) (follows' : Follows U entry program stop')
    (printed' : ∀ s ∈ program, Printed s)
    (follows'' : Follows U entry (relocated U labels' free program).flatten stop'')
    (copies : List.Forall₂ (Copy U made labels program) (dataStatements statements)
      (dataStatements program)) (original : Assembled statements layout bytes)
    (optimized : Assembled (relocated U labels' free program).flatten layout' bytes') :
    KeepsData statements (relocated U labels' free program).flatten bytes bytes' ↔
      ∀ s ∈ dataStatements statements, Literal s → ∀ v, Refers U made labels s v → ∀ last n,
        s.args.getLast? = some last → Asm.strtoul (encode last) = some n →
          n + deletedBefore U labels' free v none program = v := by
  have printed'' := @relocated_printed U labels' free program printed'
  have at_ {r : Statement} (here : r ∈ (relocated U labels' free program).flatten) :=
    assembled_at optimized follows'' (fun s here => (printed'' s here).bare)
      (fun s here => (printed'' s here).other) here
  have addresses := Asm.layout_addresses (Nat.le_refl _)
    (fun _ mem => absurd mem List.not_mem_nil) (assembled_folds optimized).1
  have anchors (name : Token) (v : Nat) (anchored : Anchored program name v) :
      ∃ n, Asm.value layout'.symbols true (encode name) = .ok n ∧
        n + deletedBefore U labels' free v none program = v := by
    obtain ⟨r, here, label, moved⟩ := @anchored_moves U labels' free program stop' follows' name v
      anchored
    have found := (at_ here).2 name label
    have valid := (addresses _ (List.mem_of_find?_eq_some found)).1
    exact ⟨r.pc, Asm.value_label true valid found, moved⟩
  apply forall₂_iff (forall₂_comp copies (left_data (relocated_left program)))
  rintro s inside s' inside' ⟨q, copy, moved⟩
  obtain ⟨here, data⟩ := List.mem_filter.mp inside
  obtain ⟨here', -⟩ := List.mem_filter.mp inside'
  have emitted := (assembled_at original follows (fun s here => (printed s here).bare)
    (fun s here => (printed s here).other) here).1
  refine forall_congr' fun literal => ?_
  exact copy_emits copy moved data literal emitted (at_ here').1 anchors

/-- What is known of the optimized program: it is the images of the copies, laid out again and
assembled. -/
structure Rewritten (U : Unicode) (statements out : List Statement) (labels : Labels)
    (a : Analysis) (layout' : Layout) (bytes' : List Byte) : Prop where
  printed : ∀ s ∈ statements, Printed s
  follows : ∃ stop, Follows U entry statements stop ∧
    Follows U entry (symbolize U statements labels).1 stop
  shape : layOut entry out = (relocated U (symbolize U statements labels).2
    (unpinned U (symbolize U statements labels).1 (symbolize U statements labels).2 a)
    (symbolize U statements labels).1).flatten
  relaid : ∃ stop, Follows U entry (layOut entry out) stop
  assembled : Assembled (layOut entry out) layout' bytes'
  resolved : Resolved (generated U statements labels) labels (symbolize U statements labels).1

theorem rewritten_of (parsed : parseSource U text = .ok (statements, labels))
    (returned : optimizePeepholes U statements labels = .ok (out, changes))
    (optimized : Assembled out layout' bytes') :
    ∃ a, analyze U (symbolize U statements labels).2 (symbolize U statements labels).1 = some a ∧
      Rewritten U statements out labels a layout' bytes' := by
  obtain ⟨a, analyzed, safe, shape⟩ := optimizePeepholes_ok returned
  have labelled := parseSource_labelled parsed
  obtain ⟨stop, follows⟩ := parseSource_follows parsed
  have org := (not_or.mp (relocationHazards_eq_nil.mp safe)).1
  have noOrg' : ∀ s ∈ (symbolize U statements labels).1, s.op ≠ some opOrg :=
    fun s here isOrg => org ⟨s, here, isOrg⟩
  have noOrg : ∀ s ∈ statements, s.op ≠ some opOrg := by
    intro s here
    obtain ⟨labels', copied⟩ := @symbolizeFrom_copy U (generated U statements labels) labels labels
      statements s here
    have kept := noOrg' _ copied
    obtain ⟨-, -, op, -⟩ :=
      @symbolizeOperand_fields U (generated U statements labels) labels labels' s
    rwa [op] at kept
  have follows' : Follows U entry (symbolize U statements labels).1 stop :=
    symbolizeFrom_follows follows noOrg
  obtain ⟨same, stop', follows''⟩ := rewrite_follows (symbolize U statements labels).2 follows'
    noOrg' (unpinned U (symbolize U statements labels).1 (symbolize U statements labels).2 a)
  rw [← shape] at same
  have assembled : Assembled (layOut entry out) layout' bytes' := by
    unfold Assembled
    rw [layOut_items]
    exact optimized
  have distinct := assembled_labels assembled
  rw [same, left_labels (relocated_left _)] at distinct
  exact ⟨a, analyzed, fun s here => ⟨labelled.bare s here, noOrg s here⟩, ⟨stop, follows, follows'⟩,
    same, same ▸ ⟨stop', follows''⟩, assembled, symbolize_resolved labelled distinct⟩

/-- The data in the optimized ROM is that in the original one if, and only if, no word that
is taken for an address is moved. -/
theorem keepsData_iff (parsed : parseSource U text = .ok (statements, labels))
    (returned : optimizePeepholes U statements labels = .ok (out, changes))
    (original : Assembled statements layout bytes) (optimized : Assembled out layout' bytes') :
    KeepsData statements (layOut entry out) bytes bytes' ↔
      ∀ a, analyze U (symbolize U statements labels).2 (symbolize U statements labels).1 = some a →
        Unmoved U statements labels a := by
  obtain ⟨a, analyzed, rewritten⟩ := rewritten_of parsed returned optimized
  obtain ⟨stop, follows, follows'⟩ := rewritten.follows
  obtain ⟨stop', follows''⟩ := rewritten.relaid
  have resolved := rewritten.resolved
  have assembled := rewritten.assembled
  rw [rewritten.shape] at follows'' assembled ⊢
  have copies := @symbolizeFrom_copies U _ labels _ labels statements resolved
    ⟨resolved.labelled, fun _ here => here⟩ isData rfl
  rw [keepsData_copies follows rewritten.printed follows' (symbolize_printed rewritten.printed)
    follows'' copies original assembled]
  constructor
  · intro unmoved b isB
    cases analyzed.symm.trans isB
    exact unmoved
  · intro unmoved
    exact unmoved a analyzed

end

/-- A no-op before data that is named by its address, and a word behind it. -/
def pointsAt (address : Text) : Text := "LD V0, 1
LD V1, V1
LD I, ".toList ++ address ++ "
L: JP L
.BYTE 0XF0, 0
.WORD 0X208".toList

def pointsAtStatements (address : Token) : List Statement :=
  [⟨1, none, some ['L', 'D'], [['V', '0'], ['1']], 0x200, 2⟩,
    ⟨2, none, some ['L', 'D'], [['V', '1'], ['V', '1']], 0x202, 2⟩,
    ⟨3, none, some ['L', 'D'], [['I'], address], 0x204, 2⟩,
    ⟨4, some ['L'], some ['J', 'P'], [['L']], 0x206, 2⟩,
    ⟨5, none, some opByte, [['0', 'X', 'F', '0'], ['0']], 0x208, 2⟩,
    ⟨6, none, some opWord, [['0', 'X', '2', '0', '8']], 0x20a, 2⟩]

def pointsAtLabels : Labels := [(['L'], 0x206)]

/-- The word is not what is pointed at, and stays. -/
theorem keepsData_word :
    ∃ out changes layout layout' bytes bytes',
      optimizePeepholes ascii (pointsAtStatements "0X20A".toList) pointsAtLabels =
        .ok (out, changes) ∧
      Assembled (pointsAtStatements "0X20A".toList) layout bytes ∧ Assembled out layout' bytes' ∧
      KeepsData (pointsAtStatements "0X20A".toList) (layOut entry out) bytes bytes' := by
  let out : List Statement :=
    [⟨1, none, some ['L', 'D'], [['V', '0'], ['1']], 0x200, 2⟩,
      ⟨3, none, some ['L', 'D'], [['I'], "ADDR20A".toList], 0x204, 2⟩,
      ⟨4, some ['L'], some ['J', 'P'], [['L']], 0x206, 2⟩,
      ⟨5, none, some opByte, [['0', 'X', 'F', '0'], ['0']], 0x208, 2⟩,
      ⟨6, some "ADDR20A".toList, none, [], 0x20a, 0⟩,
      ⟨6, none, some opWord, [['0', 'X', '2', '0', '8']], 0x20a, 2⟩]
  have parsed : parseSource ascii (pointsAt "0X20A".toList) =
      .ok (pointsAtStatements "0X20A".toList, pointsAtLabels) := by
    decide +kernel
  have returned : optimizePeepholes ascii (pointsAtStatements "0X20A".toList) pointsAtLabels =
      .ok (out, [⟨0x202, .noop, some ['L', 'D'], some ['V', '1']⟩]) := by
    decide +kernel
  have original : Assembled (pointsAtStatements "0X20A".toList) ⟨[⟨['L'], 0x206⟩], 0x20c⟩
      [0x60, 0x01, 0x81, 0x10, 0xa2, 0x0a, 0x12, 0x06, 0xf0, 0, 0x02, 0x08] :=
    ⟨by decide +kernel, ⟨0x20c, _⟩, by decide +kernel, rfl⟩
  have optimized : Assembled out ⟨[⟨['L'], 0x204⟩, ⟨"ADDR20A".toList, 0x208⟩], 0x20a⟩
      [0x60, 0x01, 0xa2, 0x08, 0x12, 0x04, 0xf0, 0, 0x02, 0x08] :=
    ⟨by decide +kernel, ⟨0x20a, _⟩, by decide +kernel, rfl⟩
  refine ⟨_, _, _, _, _, _, returned, original, optimized,
    (keepsData_iff parsed returned original optimized).mpr ?_⟩
  -- no data statement refers to 0x20a
  intro a _ s data _ v refers
  have only : generated ascii (pointsAtStatements "0X20A".toList) pointsAtLabels = [0x20a] := by
    decide +kernel
  have made := refers.made
  rw [only, List.mem_singleton] at made
  have target := refers.target
  rw [made] at target
  have others : ∀ s ∈ dataStatements (pointsAtStatements "0X20A".toList),
      Opt.target ascii pointsAtLabels s ≠ some ((0x20a : Nat) : Int) := by
    decide +kernel
  exact absurd target (others s data)

/-- The word is what is pointed at, and moves. -/
theorem keepsData_moved :
    ∃ out changes layout layout' bytes bytes',
      parseSource ascii (pointsAt "0X208".toList) =
        .ok (pointsAtStatements "0X208".toList, pointsAtLabels) ∧
      optimizePeepholes ascii (pointsAtStatements "0X208".toList) pointsAtLabels =
        .ok (out, changes) ∧
      Asm.assemble (encode (pointsAt "0X208".toList)) = .ok bytes ∧
      Asm.assemble (encode (canonicalize out)) = .ok bytes' ∧
      Assembled (pointsAtStatements "0X208".toList) layout bytes ∧ Assembled out layout' bytes' ∧
      ¬ KeepsData (pointsAtStatements "0X208".toList) (layOut entry out) bytes bytes' := by
  let out : List Statement :=
    [⟨1, none, some ['L', 'D'], [['V', '0'], ['1']], 0x200, 2⟩,
      ⟨3, none, some ['L', 'D'], [['I'], "ADDR208".toList], 0x204, 2⟩,
      ⟨4, some ['L'], some ['J', 'P'], [['L']], 0x206, 2⟩,
      ⟨5, some "ADDR208".toList, none, [], 0x208, 0⟩,
      ⟨5, none, some opByte, [['0', 'X', 'F', '0'], ['0']], 0x208, 2⟩,
      ⟨6, none, some opWord, ["ADDR208".toList], 0x20a, 2⟩]
  refine ⟨out, [⟨0x202, .noop, some ['L', 'D'], some ['V', '1']⟩], ⟨[⟨['L'], 0x206⟩], 0x20c⟩,
    ⟨[⟨['L'], 0x204⟩, ⟨"ADDR208".toList, 0x206⟩], 0x20a⟩,
    [0x60, 0x01, 0x81, 0x10, 0xa2, 0x08, 0x12, 0x06, 0xf0, 0, 0x02, 0x08],
    [0x60, 0x01, 0xa2, 0x06, 0x12, 0x04, 0xf0, 0, 0x02, 0x06], by decide +kernel,
    by decide +kernel, by decide +kernel, by decide +kernel,
    ⟨by decide +kernel, ⟨0x20c, _⟩, by decide +kernel, rfl⟩,
    ⟨by decide +kernel, ⟨0x20a, _⟩, by decide +kernel, rfl⟩, fun keeps => ?_⟩
  have literal : ∀ a ∈ [['0', 'X', '2', '0', '8']], (Asm.strtoul (encode a)).isSome = true := by
    decide
  have same := (List.forall₂_iff_get.mp keeps).2 1 (by decide) (by decide) literal
  exact absurd same (by decide +kernel)

end ChipEight.Opt
