import ChipEight.Library.Layout
import ChipEight.Opt.Program
import ChipEight.Opt.Refusal

/-! Where the statements are that `optimize_peepholes` leaves.

Each statement has its image in the new list: nothing, where it was deleted or merged into
the one before it, or one statement of the same size. The new layout is that of the images,
so two statements keep their distance if nothing from the one up to the other is deleted.
-/

set_option autoImplicit false

namespace ChipEight.Opt

open Asm (Text Token Mnemonic wordI wordK)
open Layout (total offset)

/-! ## Layout -/

/-- Statements laid out again from an address. -/
def layOut (pc : Nat) : List Statement → List Statement
  | [] => []
  | s :: rest => { s with pc := pc } :: layOut (pc + s.size) rest

/-- Lists of statements laid out one after the other. -/
def place (pc : Nat) : List (List Statement) → List (List Statement)
  | [] => []
  | image :: rest => layOut pc image :: place (pc + total Statement.size image) rest

theorem layOut_append (pc : Nat) (xs ys : List Statement) :
    layOut pc (xs ++ ys) = layOut pc xs ++ layOut (pc + total Statement.size xs) ys := by
  induction xs generalizing pc with
  | nil => rfl
  | cons s rest ih =>
    rw [List.cons_append, layOut, layOut, ih, Layout.total_cons, Nat.add_assoc, List.cons_append]

theorem layOut_flatten (pc : Nat) (images : List (List Statement)) :
    layOut pc images.flatten = (place pc images).flatten := by
  induction images generalizing pc with
  | nil => rfl
  | cons image rest ih => rw [List.flatten_cons, layOut_append, ih, place, List.flatten_cons]

theorem place_length (pc : Nat) (images : List (List Statement)) :
    (place pc images).length = images.length := by
  induction images generalizing pc with
  | nil => rfl
  | cons image rest ih => rw [place, List.length_cons, List.length_cons, ih]

theorem place_at {pc k : Nat} {images : List (List Statement)} {image : List Statement}
    (here : images[k]? = some image) :
    (place pc images)[k]? = some (layOut (pc + offset (total Statement.size) images k) image) := by
  induction images generalizing pc k with
  | nil => cases here
  | cons first rest ih =>
    cases k with
    | zero =>
      cases here
      rfl
    | succ k =>
      rw [List.getElem?_cons_succ] at here
      rw [place, List.getElem?_cons_succ, ih here, Layout.offset_cons, Nat.add_assoc]

theorem Follows.pc {U : Unicode} {start stop : Nat} {statements : List Statement}
    (follows : Follows U start statements stop) {k : Nat} {s : Statement}
    (here : statements[k]? = some s) :
    s.pc = start + offset Statement.size statements k := by
  induction follows generalizing k with
  | nil => cases here
  | cons _ _ ih =>
    cases k with
    | zero =>
      cases here
      rfl
    | succ k =>
      rw [List.getElem?_cons_succ] at here
      rw [ih here, Layout.offset_cons, Nat.add_assoc]

theorem Follows.sized {U : Unicode} {start stop : Nat} {statements : List Statement}
    (follows : Follows U start statements stop) {s : Statement} (here : s ∈ statements) :
    sizeOf U s.line s.pc s.op s.args = .ok s.size := by
  induction follows with
  | nil => cases here
  | cons sized _ ih =>
    obtain rfl | later := List.mem_cons.mp here
    · exact sized
    · exact ih later

section
variable {U : Unicode}

theorem size_of_mnemonic {start stop : Nat} {statements : List Statement}
    (follows : Follows U start statements stop) {s : Statement} (here : s ∈ statements)
    {m : Mnemonic} (isM : isOp s m = true) : s.size = 2 := by
  have sized := follows.sized here
  have op : s.op = some m.text := by simpa [isOp] using isM
  rw [op] at sized
  have plain : m.text ≠ opOrg ∧ m.text ≠ opByte ∧ m.text ≠ opWord := by
    cases m <;> decide
  unfold sizeOf at sized
  simp only [beq_iff_eq, plain.1, plain.2.1, plain.2.2, if_false] at sized
  exact (Except.ok.inj sized).symm

/-! ## Images -/

/-- The statement that takes the place of another, at any address: the same one, an `LD` with
a sum, or a `CALL` turned into `JP`. -/
inductive Image (U : Unicode) (labels : Labels) (free : Nat → Bool) (s : Statement)
    (next : Option Statement) : Statement → Prop where
  | same (pc : Nat) : Image U labels free s next { s with pc := pc }
  | folded (pc : Nat) {t : Statement} {total : Nat} (follows : next = some t)
      (folds : folds U free s t = some total) : Image U labels free s next
        ⟨s.line, s.label, some Mnemonic.ld.text, [s.args.headD [], byteText total], pc, 2⟩
  | tailCall (pc : Nat) {t : Statement} (follows : next = some t)
      (tail : isTailCall U labels s t = true) : Image U labels free s next
        ⟨s.line, s.label, some Mnemonic.jp.text, s.args, pc, 2⟩

/-- What is put in the place of each statement. -/
def images (U : Unicode) (labels : Labels) (free : Nat → Bool) :
    List Statement → List (List Statement)
  | [] => []
  | [s] => [(ruleAt U labels free s none).image s]
  | s :: t :: rest =>
    let rule := ruleAt U labels free s (some t)
    rule.image s :: match rule with
      | .fold _ => [] :: images U labels free rest
      | _ => images U labels free (t :: rest)

theorem rewrite_images (labels : Labels) (free : Nat → Bool) (statements : List Statement) :
    (rewrite U labels free statements).1 = (images U labels free statements).flatten := by
  fun_induction images U labels free statements with
  | case1 => rfl
  | case2 s => simp [rewrite]
  | case3 s t rest rule merged kept =>
    unfold rewrite
    dsimp only
    rw [List.flatten_cons]
    change rule.image s ++ Prod.fst (match rule with | .fold _ => _ | _ => _) = _
    cases rule with
    | fold total => exact congrArg _ (merged.trans (List.nil_append _).symm)
    | _ => exact congrArg _ kept

theorem images_length (labels : Labels) (free : Nat → Bool) (statements : List Statement) :
    (images U labels free statements).length = statements.length := by
  fun_induction images U labels free statements with
  | case1 => rfl
  | case2 s => rfl
  | case3 s t rest rule merged kept =>
    cases rule with
    | fold total => simp [merged]
    | _ => simp [kept]

/-- A statement that may go: an unlabelled `LD` or `ADD` where nothing keeps its address. -/
structure Loose (free : Nat → Bool) (s : Statement) : Prop where
  label : s.label = none
  free : free s.pc = true
  op : isOp s .ld = true ∨ isOp s .add = true

theorem mnemonic_of_op {s : Statement} {m n : Mnemonic} (op : s.op = some m.text)
    (isN : isOp s n = true) : m = n := by
  have same : m.text = n.text := by
    have text := beq_iff_eq.mp isN
    rw [op] at text
    exact Option.some.inj text
  have found (m : Mnemonic) : Asm.mnemonic m.text = some m := by
    cases m <;> rfl
  have first := found m
  rw [same, found n] at first
  exact (Option.some.inj first).symm

theorem isOp_other {s : Statement} {m n : Mnemonic} (isM : isOp s m = true) (other : m ≠ n) :
    isOp s n = false := by
  rw [← Bool.not_eq_true]
  intro isN
  exact other (mnemonic_of_op (beq_iff_eq.mp isM) isN)

theorem folds_add {free : Nat → Bool} {s t : Statement} (isAdd : isOp s .add = true) :
    folds U free s t = none := by
  unfold folds
  rw [isOp_other isAdd Mnemonic.noConfusion, Bool.false_and, if_neg Bool.false_ne_true]

theorem folds_ld {free : Nat → Bool} {s t : Statement} (isLd : isOp t .ld = true) :
    folds U free s t = none := by
  unfold folds
  rw [isOp_other isLd Mnemonic.noConfusion, Bool.and_false, if_neg Bool.false_ne_true]

theorem folds_some {free : Nat → Bool} {s t : Statement} {total : Nat}
    (found : folds U free s t = some total) :
    isOp s .ld = true ∧ isOp t .add = true ∧ Loose free t := by
  unfold folds at found
  split at found
  · rename_i ops
    obtain ⟨isLd, isAdd⟩ := Bool.and_eq_true_iff.mp ops
    split at found
    · split at found
      · rename_i conditions
        simp only [Bool.and_eq_true] at conditions
        obtain ⟨⟨-, plain⟩, loose⟩ := conditions
        exact ⟨isLd, isAdd, Option.isNone_iff_eq_none.mp plain, loose, .inr isAdd⟩
      · cases found
    · cases found
  · cases found

theorem noop_op {s : Statement} (noop : isNoop U s = true) :
    isOp s .ld = true ∨ isOp s .add = true := by
  unfold isNoop at noop
  split at noop
  · simp only [Bool.or_eq_true, Bool.and_eq_true] at noop
    exact noop.imp And.left fun add => add.1.1
  · cases noop

theorem overwritten_op {s t : Statement} (replaced : isOverwritten s t = true) :
    isOp s .ld = true := by
  unfold isOverwritten at replaced
  split at replaced
  · simp only [Bool.and_eq_true] at replaced
    exact replaced.1.1.1.1
  · cases replaced

theorem overwritten_next {s t : Statement} (overwritten : isOverwritten s t = true) :
    isOp t .ld = true := by
  unfold isOverwritten at overwritten
  split at overwritten
  · simp only [Bool.and_eq_true] at overwritten
    exact overwritten.1.1.1.2
  · cases overwritten

theorem ruleAt_fold {labels : Labels} {free : Nat → Bool} {s : Statement}
    {next : Option Statement} {total : Nat} (isFold : ruleAt U labels free s next = .fold total) :
    ∃ t, next = some t ∧ folds U free s t = some total := by
  unfold ruleAt at isFold
  split at isFold
  · rename_i n found
    cases isFold
    exact Option.bind_eq_some_iff.mp found
  · split_ifs at isFold

theorem ruleAt_folds {labels : Labels} {free : Nat → Bool} {s t : Statement} {total : Nat}
    (found : folds U free s t = some total) :
    ruleAt U labels free s (some t) = .fold total := by
  unfold ruleAt
  rw [Option.bind_some, found]

theorem ruleAt_tailCall {labels : Labels} {free : Nat → Bool} {s : Statement}
    {next : Option Statement} (isRule : ruleAt U labels free s next = .tailCall) :
    ∃ t, next = some t ∧ isTailCall U labels s t = true := by
  unfold ruleAt at isRule
  split at isRule
  · cases isRule
  · split_ifs at isRule with tail
    exact (Option.any_eq_true ..).mp tail

theorem ruleAt_noop {labels : Labels} {free : Nat → Bool} {s : Statement} {next : Option Statement}
    (isRule : ruleAt U labels free s next = .noop) : isNoop U s = true := by
  unfold ruleAt at isRule
  split at isRule
  · cases isRule
  · split_ifs at isRule with _ noop
    simp only [Bool.and_eq_true] at noop
    exact noop.1.1

theorem ruleAt_overwritten {labels : Labels} {free : Nat → Bool} {s : Statement}
    {next : Option Statement} (isRule : ruleAt U labels free s next = .overwritten) :
    ∃ t, next = some t ∧ isOverwritten s t = true := by
  unfold ruleAt at isRule
  split at isRule
  · cases isRule
  · split_ifs at isRule with _ _ overwritten
    simp only [Bool.and_eq_true] at overwritten
    exact (Option.any_eq_true ..).mp overwritten.1.1

theorem ruleAt_image {labels : Labels} {free : Nat → Bool} {s : Statement}
    {next : Option Statement} :
    ((ruleAt U labels free s next).image s = [] ∧ Loose free s) ∨
      ∃ s', (ruleAt U labels free s next).image s = [s'] ∧ Image U labels free s next s' := by
  have loose {P : Bool} (op : P = true → isOp s .ld = true ∨ isOp s .add = true)
      (applies : (P && s.label.isNone && free s.pc) = true) : Loose free s := by
    simp only [Bool.and_eq_true] at applies
    exact ⟨Option.isNone_iff_eq_none.mp applies.1.2, applies.2, op applies.1.1⟩
  unfold ruleAt
  split
  · rename_i total found
    obtain ⟨t, follows, found⟩ := Option.bind_eq_some_iff.mp found
    exact .inr ⟨_, rfl, .folded s.pc follows found⟩
  · split
    · rename_i tail
      cases next with
      | none => cases tail
      | some t => exact .inr ⟨_, rfl, .tailCall s.pc rfl tail⟩
    · split
      · rename_i noop
        exact .inl ⟨rfl, loose noop_op noop⟩
      · split
        · rename_i overwritten
          refine .inl ⟨rfl, loose (fun replaced => .inl ?_) overwritten⟩
          cases next with
          | none => cases replaced
          | some t => exact overwritten_op replaced
        · exact .inr ⟨s, rfl, .same s.pc⟩

theorem images_at {labels : Labels} {free : Nat → Bool} {statements : List Statement} {k : Nat}
    {s : Statement} (here : statements[k]? = some s) :
    ((images U labels free statements)[k]? = some [] ∧ Loose free s) ∨
      ∃ s', (images U labels free statements)[k]? = some [s'] ∧
        Image U labels free s statements[k + 1]? s' := by
  have first {next : Option Statement} :
      (some ((ruleAt U labels free s next).image s) = some [] ∧ Loose free s) ∨
        ∃ s', some ((ruleAt U labels free s next).image s) = some [s'] ∧
          Image U labels free s next s' := by
    simpa only [Option.some.injEq] using ruleAt_image
  induction statements using images.induct U labels free generalizing k with
  | case1 => cases here
  | case2 r =>
    cases k with
    | zero =>
      cases here
      exact first
    | succ k => cases here
  | case3 r t rest merged kept =>
    cases k with
    | zero =>
      cases here
      exact first
    | succ k =>
      rw [List.getElem?_cons_succ, List.getElem?_cons_succ]
      rw [List.getElem?_cons_succ] at here
      unfold images
      rw [List.getElem?_cons_succ]
      cases isRule : ruleAt U labels free r (some t) with
      | fold total =>
        -- the second of two merged statements is gone
        cases k with
        | zero =>
          cases here
          obtain ⟨t', same, found⟩ := ruleAt_fold isRule
          cases same
          exact .inl ⟨rfl, (folds_some found).2.2⟩
        | succ k => exact merged here
      | _ => exact kept here

/-! ## Relocation -/

section
variable (U) (labels : Labels) (free : Nat → Bool) (old : List Statement)
  (new : List (List Statement))

/-- The statement with an index, and its image. -/
structure Becomes (k : Nat) (s s' : Statement) : Prop where
  here : old[k]? = some s
  there : new[k]? = some [s']
  image : Image U labels free s old[k + 1]? s'

/-- What holds of the images of the statements, laid out again. -/
structure Relocated (bases : List Int) : Prop where
  length : new.length = old.length
  image : ∀ k s, old[k]? = some s → new[k]? = some [] ∨ ∃ s', Becomes U labels free old new k s s'
  labelled : ∀ k s, old[k]? = some s → s.label.isSome →
    ∃ s', Becomes U labels free old new k s s' ∧ s'.label = s.label
  /-- A label and what stands at its address. -/
  addressed : ∀ i r k s, old[i]? = some r → r.label.isSome → old[k]? = some s → s.pc = r.pc →
    ∃ r' s', Becomes U labels free old new i r r' ∧ Becomes U labels free old new k s s' ∧
      s'.pc = r'.pc
  skips : ∀ k s, old[k]? = some s → isSkip s = true →
    ∃ s', Becomes U labels free old new k s s' ∧
      ∀ d ∈ [2, 4], ∀ j t, old[j]? = some t → t.pc = s.pc + d →
        ∃ t', Becomes U labels free old new j t t' ∧ t'.pc = s'.pc + d
  /-- Nothing is deleted or merged from the lowest base on. -/
  pinned : ∀ base ∈ bases, ∀ k s, old[k]? = some s → base ≤ s.pc →
    ∃ s', Becomes U labels free old new k s s' ∧
      (s' = { s with pc := s'.pc } ∨ ∃ t, old[k + 1]? = some t ∧ isTailCall U labels s t = true)
  distances : ∀ base ∈ bases, ∀ i r k s, old[i]? = some r → base ≤ r.pc → old[k]? = some s →
    base ≤ s.pc → ∃ r' s', Becomes U labels free old new i r r' ∧
      Becomes U labels free old new k s s' ∧ (s'.pc : Int) - r'.pc = s.pc - r.pc

end

section
variable {labels : Labels} {free : Nat → Bool} {old : List Statement} {stop : Nat}

theorem Image.moved {s s' : Statement} {next : Option Statement}
    (image : Image U labels free s next s') (pc : Nat) :
    Image U labels free s next { s' with pc := pc } := by
  cases image with
  | same => exact .same pc
  | folded _ follows found => exact .folded pc follows found
  | tailCall _ follows tail => exact .tailCall pc follows tail

theorem Image.label {s s' : Statement} {next : Option Statement}
    (image : Image U labels free s next s') : s'.label = s.label := by
  cases image <;> rfl

theorem Image.size {s s' : Statement} {next : Option Statement}
    (instruction : ∀ m, isOp s m = true → s.size = 2) (image : Image U labels free s next s') :
    s'.size = s.size := by
  cases image with
  | same => rfl
  | folded _ _ found => exact (instruction _ (folds_some found).1).symm
  | tailCall _ _ tail =>
    simp only [isTailCall, Bool.and_eq_true] at tail
    exact (instruction _ tail.1.1.1).symm

/-- The images, laid out again. -/
def relocated (U : Unicode) (labels : Labels) (free : Nat → Bool) (old : List Statement) :
    List (List Statement) :=
  place entry (images U labels free old)

theorem relocated_at (labels : Labels) {k : Nat} {s : Statement} (here : old[k]? = some s) :
    ((relocated U labels free old)[k]? = some [] ∧ Loose free s) ∨
      ∃ s', Becomes U labels free old (relocated U labels free old) k s s' ∧
        s'.pc = entry + offset (total Statement.size) (images U labels free old) k := by
  obtain ⟨gone, loose⟩ | ⟨s', there, image⟩ := images_at here
  · exact .inl ⟨place_at gone, loose⟩
  · exact .inr ⟨_, ⟨here, place_at there, image.moved _⟩, rfl⟩

theorem relocated_kept (labels : Labels) {k : Nat} {s : Statement} (here : old[k]? = some s)
    (kept : ¬ Loose free s) :
    ∃ s', Becomes U labels free old (relocated U labels free old) k s s' ∧
      s'.pc = entry + offset (total Statement.size) (images U labels free old) k :=
  (relocated_at labels here).resolve_left fun gone => kept gone.2

theorem relocated_distance (labels : Labels) (follows : Follows U entry old stop) {i k : Nat}
    {r s : Statement} (first : old[i]? = some r) (second : old[k]? = some s) (order : i ≤ k)
    (kept : ∀ m t, i ≤ m → m ≤ k → old[m]? = some t → ¬ Loose free t) :
    ∃ r' s', Becomes U labels free old (relocated U labels free old) i r r' ∧
      Becomes U labels free old (relocated U labels free old) k s s' ∧
        s'.pc + r.pc = r'.pc + s.pc := by
  obtain ⟨r', before, low⟩ := relocated_kept labels first (kept i r (Nat.le_refl i) order first)
  obtain ⟨s', after, high⟩ := relocated_kept labels second (kept k s order (Nat.le_refl k) second)
  refine ⟨r', s', before, after, ?_⟩
  rw [low, high, follows.pc first, follows.pc second]
  have short : k ≤ old.length := (List.getElem?_eq_some_iff.mp second).1.le
  have distance := @Layout.offset_distance _ _ Statement.size (total Statement.size) old
    (images U labels free old) (images_length labels free old) i k order short ?_
  · omega
  · intro m t image low high here there
    obtain ⟨gone, loose⟩ | ⟨t', there', image'⟩ := @images_at U labels free _ _ _ here
    · exact absurd loose (kept m t low high.le here)
    · cases there.symm.trans there'
      rw [Layout.total_cons, Layout.total_nil,
        image'.size fun m => size_of_mnemonic follows (List.mem_of_getElem? here)]
      rfl

/-! ## What is kept -/

theorem Becomes.unique {new : List (List Statement)} {k : Nat} {r s r' s' : Statement}
    (first : Becomes U labels free old new k r r') (second : Becomes U labels free old new k s s') :
    r' = s' := by
  have same := first.there.symm.trans second.there
  cases same
  rfl

theorem Follows.ordered (follows : Follows U entry old stop) {i k : Nat} {r s : Statement}
    (first : old[i]? = some r) (second : old[k]? = some s) (order : i ≤ k) : r.pc ≤ s.pc := by
  rw [follows.pc first, follows.pc second]
  exact Nat.add_le_add_left (Layout.offset_mono old order) entry

theorem Follows.ends (follows : Follows U entry old stop) {i k : Nat} {r s : Statement}
    (first : old[i]? = some r) (second : old[k]? = some s) (order : i < k) :
    r.pc + r.size ≤ s.pc := by
  have next := @Layout.offset_next _ Statement.size _ _ _ _ first order
  rw [follows.pc first, follows.pc second]
  omega

theorem Loose.size {s : Statement} (loose : Loose free s) (follows : Follows U entry old stop)
    (here : s ∈ old) : s.size = 2 :=
  loose.op.elim (size_of_mnemonic follows here) (size_of_mnemonic follows here)

theorem skip_op {s : Statement} (skip : isSkip s = true) :
    ∃ m, isOp s m = true ∧ isOp s .ld = false ∧ isOp s .add = false := by
  obtain ⟨m, among, op⟩ := List.any_eq_true.mp skip
  refine ⟨m, op, ?_⟩
  unfold isOp
  rw [beq_iff_eq.mp op]
  revert among
  cases m <;> decide

theorem skip_kept {s : Statement} (skip : isSkip s = true) : ¬ Loose free s := by
  rintro ⟨-, -, isLd | isAdd⟩
  · obtain ⟨_, -, notLd, -⟩ := skip_op skip
    exact Bool.false_ne_true (notLd.symm.trans isLd)
  · obtain ⟨_, -, -, notAdd⟩ := skip_op skip
    exact Bool.false_ne_true (notAdd.symm.trans isAdd)

end

section
variable {labels : Labels} {old : List Statement} {stop : Nat} {a : Analysis}

/-- Nothing keeps the address. -/
def unpinned (U : Unicode) (old : List Statement) (labels : Labels) (a : Analysis) (pc : Nat) :
    Bool :=
  !keeps U old labels a pc

theorem protected_kept {s : Statement} (among : (s.pc : Int) ∈ protectedPcs U old labels) :
    ¬ Loose (unpinned U old labels a) s := by
  intro loose
  have free := loose.free
  unfold unpinned keeps at free
  rw [List.contains_iff_mem.mpr among, Bool.true_or] at free
  cases free

theorem based_kept {s : Statement} {base : Int} (among : base ∈ dynamicBaseBoundaries a)
    (above : base ≤ s.pc) : ¬ Loose (unpinned U old labels a) s := by
  intro loose
  have free := loose.free
  unfold unpinned keeps at free
  rw [List.any_eq_true.mpr ⟨base, among, decide_eq_true above⟩, Bool.or_true] at free
  cases free

theorem protected_label {name : Token} {pc : Nat} (found : labels.lookup name = some pc) :
    (pc : Int) ∈ protectedPcs U old labels := by
  obtain ⟨before, after, split, -⟩ := List.lookup_eq_some_iff.mp found
  have inside : (name, pc) ∈ labels := split ▸ List.mem_append_right _ List.mem_cons_self
  exact List.mem_append_left _ (List.mem_cons_of_mem _ (List.mem_map_of_mem inside))

theorem protected_skip {s : Statement} (here : s ∈ old) (skip : isSkip s = true) :
    (s.pc : Int) + 2 ∈ protectedPcs U old labels ∧
      (s.pc : Int) + 4 ∈ protectedPcs U old labels := by
  have among (pc : Int) (one : pc ∈ [(s.pc : Int) + 2, (s.pc : Int) + 4]) :
      pc ∈ protectedPcs U old labels := by
    refine List.mem_append_right _ (List.mem_flatMap.mpr ⟨s, here, List.mem_append_right _ ?_⟩)
    rw [if_pos skip]
    exact one
  exact ⟨among _ (by simp), among _ (by simp)⟩

theorem skip_window (follows : Follows U entry old stop) {k j m : Nat} {s t r : Statement}
    (here : old[k]? = some s) (skip : isSkip s = true) (there : old[j]? = some t)
    (near : t.pc = s.pc + 2 ∨ t.pc = s.pc + 4) (low : k ≤ m) (high : m ≤ j)
    (between : old[m]? = some r) : ¬ Loose (unpinned U old labels a) r := by
  intro loose
  have inside := List.mem_of_getElem? between
  obtain ⟨second, fourth⟩ := @protected_skip U labels old s (List.mem_of_getElem? here) skip
  obtain ⟨op, isOp, -⟩ := skip_op skip
  have size := size_of_mnemonic follows (List.mem_of_getElem? here) isOp
  have two := loose.size follows inside
  have before := follows.ordered between there high
  obtain rfl | later := low.eq_or_lt
  · cases here.symm.trans between
    exact skip_kept skip loose
  · have after := follows.ends here between later
    by_cases even : r.pc = s.pc + 2 ∨ r.pc = s.pc + 4
    · refine protected_kept ?_ loose
      obtain even | even := even <;> rw [even] <;> assumption
    · -- a statement of one byte, which is data
      obtain rfl | earlier := high.eq_or_lt
      · cases there.symm.trans between
        exact even near
      · have ends := follows.ends between there earlier
        omega

theorem relocated_apart (labels : Labels) (follows : Follows U entry old stop)
    {free : Nat → Bool} {i k : Nat} {r s : Statement} (first : old[i]? = some r)
    (second : old[k]? = some s)
    (kept : ∀ m t, (i ≤ m ∧ m ≤ k) ∨ (k ≤ m ∧ m ≤ i) → old[m]? = some t → ¬ Loose free t) :
    ∃ r' s', Becomes U labels free old (relocated U labels free old) i r r' ∧
      Becomes U labels free old (relocated U labels free old) k s s' ∧
        s'.pc + r.pc = r'.pc + s.pc := by
  obtain order | order := Nat.le_total i k
  · exact relocated_distance labels follows first second order
      fun m t low high => kept m t (.inl ⟨low, high⟩)
  · obtain ⟨s', r', becomesS, becomesR, distance⟩ := relocated_distance labels follows
      second first order fun m t low high => kept m t (.inr ⟨low, high⟩)
    exact ⟨r', s', becomesR, becomesS, by omega⟩

section
variable (follows : Follows U entry old stop)
include follows

theorem relocated_addressed
    (named : ∀ s ∈ old, ∀ l, s.label = some l → labels.lookup l = some s.pc) {i k : Nat}
    {r s : Statement} (first : old[i]? = some r) (label : r.label.isSome)
    (second : old[k]? = some s) (same : s.pc = r.pc) :
    ∃ r' s', Becomes U labels (unpinned U old labels a) old
        (relocated U labels (unpinned U old labels a) old) i r r' ∧
      Becomes U labels (unpinned U old labels a) old
        (relocated U labels (unpinned U old labels a) old) k s s' ∧ s'.pc = r'.pc := by
  obtain ⟨name, isName⟩ := Option.isSome_iff_exists.mp label
  -- what stands between has the same address
  have kept (m : Nat) (t : Statement) (between : (i ≤ m ∧ m ≤ k) ∨ (k ≤ m ∧ m ≤ i))
      (here : old[m]? = some t) : ¬ Loose (unpinned U old labels a) t := by
    apply protected_kept
    have address : t.pc = r.pc := by
      obtain ⟨low, high⟩ | ⟨low, high⟩ := between
      · exact Nat.le_antisymm (same ▸ follows.ordered here second high)
          (follows.ordered first here low)
      · exact Nat.le_antisymm (follows.ordered here first high)
          (same ▸ follows.ordered second here low)
    rw [address]
    exact protected_label (named r (List.mem_of_getElem? first) name isName)
  obtain ⟨r', s', becomesR, becomesS, distance⟩ :=
    relocated_apart labels follows first second kept
  exact ⟨r', s', becomesR, becomesS, by omega⟩

theorem relocated_skips {k : Nat} {s : Statement} (here : old[k]? = some s)
    (skip : isSkip s = true) :
    ∃ s', Becomes U labels (unpinned U old labels a) old
        (relocated U labels (unpinned U old labels a) old) k s s' ∧
      ∀ d ∈ [2, 4], ∀ j t, old[j]? = some t → t.pc = s.pc + d →
        ∃ t', Becomes U labels (unpinned U old labels a) old
          (relocated U labels (unpinned U old labels a) old) j t t' ∧ t'.pc = s'.pc + d := by
  obtain ⟨s', becomes, -⟩ := relocated_kept labels here
    (@skip_kept (unpinned U old labels a) s skip)
  refine ⟨s', becomes, fun d among j t there distance => ?_⟩
  have near : d = 2 ∨ d = 4 := by simpa using among
  have order : k ≤ j := by
    by_contra later
    have back := follows.ordered there here (Nat.le_of_not_le later)
    omega
  obtain ⟨s'', t', becomes', becomesT, kept⟩ :=
    relocated_distance labels follows here there order
      fun m r low high between => skip_window follows here skip there (by omega) low high between
  cases becomes.unique becomes'
  exact ⟨t', becomesT, by omega⟩

theorem relocated_pinned {base : Int} (among : base ∈ dynamicBaseBoundaries a) {k : Nat}
    {s : Statement} (here : old[k]? = some s) (above : base ≤ s.pc) :
    ∃ s', Becomes U labels (unpinned U old labels a) old
        (relocated U labels (unpinned U old labels a) old) k s s' ∧
      (s' = { s with pc := s'.pc } ∨
        ∃ t, old[k + 1]? = some t ∧ isTailCall U labels s t = true) := by
  obtain ⟨s', becomes, -⟩ := relocated_kept labels here
    (@based_kept U labels old a s base among above)
  refine ⟨s', becomes, ?_⟩
  cases becomes.image with
  | same => exact .inl rfl
  | folded _ next found =>
    have later := follows.ordered here next (Nat.le_succ k)
    exact absurd (folds_some found).2.2 (based_kept among (by omega))
  | tailCall _ next tail => exact .inr ⟨_, next, tail⟩

theorem relocated_distances {base : Int} (among : base ∈ dynamicBaseBoundaries a) {i k : Nat}
    {r s : Statement} (first : old[i]? = some r) (aboveR : base ≤ r.pc)
    (second : old[k]? = some s) (aboveS : base ≤ s.pc) :
    ∃ r' s', Becomes U labels (unpinned U old labels a) old
        (relocated U labels (unpinned U old labels a) old) i r r' ∧
      Becomes U labels (unpinned U old labels a) old
        (relocated U labels (unpinned U old labels a) old) k s s' ∧
      (s'.pc : Int) - r'.pc = s.pc - r.pc := by
  have kept (m : Nat) (t : Statement) (between : (i ≤ m ∧ m ≤ k) ∨ (k ≤ m ∧ m ≤ i))
      (here : old[m]? = some t) : ¬ Loose (unpinned U old labels a) t := by
    apply based_kept among
    obtain ⟨low, -⟩ | ⟨low, -⟩ := between
    · have later := follows.ordered first here low
      omega
    · have later := follows.ordered second here low
      omega
  obtain ⟨r', s', becomesR, becomesS, distance⟩ :=
    relocated_apart labels follows first second kept
  exact ⟨r', s', becomesR, becomesS, by omega⟩

theorem relocated_of (named : ∀ s ∈ old, ∀ l, s.label = some l → labels.lookup l = some s.pc) :
    Relocated U labels (unpinned U old labels a) old
      (relocated U labels (unpinned U old labels a) old) (dynamicBaseBoundaries a) where
  length := (place_length entry _).trans (images_length labels _ old)
  image k s here := (relocated_at labels here).imp And.left fun ⟨s', becomes, _⟩ => ⟨s', becomes⟩
  labelled k s here label := by
    obtain ⟨_, s', -, becomes, -⟩ := relocated_addressed follows named here label here rfl
    exact ⟨s', becomes, becomes.image.label⟩
  addressed _ _ _ _ first label second same :=
    relocated_addressed follows named first label second same
  skips _ _ here skip := relocated_skips follows here skip
  pinned _ among _ _ here above := relocated_pinned follows among here above
  distances _ among _ _ _ _ first aboveR second aboveS :=
    relocated_distances follows among first aboveR second aboveS

end

theorem sizeOf_moved {lineNo pc pc' : Nat} {op : Option Token} {args : List Token}
    (other : op ≠ some opOrg) : sizeOf U lineNo pc op args = sizeOf U lineNo pc' op args := by
  unfold sizeOf
  cases op with
  | none => rfl
  | some op =>
    dsimp only
    rw [if_neg fun same => other (congrArg _ (beq_iff_eq.mp same)),
      if_neg fun same => other (congrArg _ (beq_iff_eq.mp same))]

theorem Image.sized {free : Nat → Bool} {s s' : Statement} {next : Option Statement}
    (image : Image U labels free s next s')
    (sized : sizeOf U s.line s.pc s.op s.args = .ok s.size) (other : s.op ≠ some opOrg) (pc : Nat) :
    sizeOf U s'.line pc s'.op s'.args = .ok s'.size := by
  cases image with
  | same => rw [sizeOf_moved other, sized]
  | folded => rfl
  | tailCall => rfl

theorem layOut_follows {statements : List Statement} (pc : Nat)
    (sized : ∀ s ∈ statements, ∀ pc, sizeOf U s.line pc s.op s.args = .ok s.size) :
    ∃ stop', Follows U pc (layOut pc statements) stop' := by
  induction statements generalizing pc with
  | nil => exact ⟨pc, .nil⟩
  | cons s rest ih =>
    obtain ⟨stop', follows⟩ :=
      ih (pc + s.size) fun s inside => sized s (List.mem_cons_of_mem _ inside)
    exact ⟨stop', @Follows.cons U { s with pc := pc } _ _ (sized s List.mem_cons_self pc) follows⟩

/-- The new list, laid out again: the images, with the sizes of its statements. -/
theorem rewrite_follows (labels : Labels) (follows : Follows U entry old stop)
    (noOrg : ∀ s ∈ old, s.op ≠ some opOrg) (free : Nat → Bool) :
    layOut entry (rewrite U labels free old).1 = (relocated U labels free old).flatten ∧
      ∃ stop', Follows U entry (relocated U labels free old).flatten stop' := by
  have same := layOut_flatten entry (images U labels free old)
  constructor
  · rw [rewrite_images]
    exact same
  · rw [relocated, ← same]
    apply layOut_follows
    intro s' inside pc
    obtain ⟨image, among, inside⟩ := List.mem_flatten.mp inside
    obtain ⟨k, there⟩ := List.mem_iff_getElem?.mp among
    have short : k < old.length := by
      rw [← images_length labels free old]
      exact (List.getElem?_eq_some_iff.mp there).1
    have here := List.getElem?_eq_getElem short
    have member := List.mem_of_getElem? here
    obtain ⟨gone, -⟩ | ⟨r, there', image'⟩ := images_at here
    · cases there.symm.trans gone
      cases inside
    · cases there.symm.trans there'
      obtain rfl := List.mem_singleton.mp inside
      exact image'.sized (follows.sized member) (noOrg _ member) pc

/-- The deletion loop keeps the entry points of the control flow and moves the labels with
their statements. -/
theorem rewrite_relocates (follows : Follows U entry old stop)
    (named : ∀ s ∈ old, ∀ l, s.label = some l → labels.lookup l = some s.pc)
    (safe : relocationHazards U old labels a = []) :
    ∃ new, layOut entry (rewrite U labels (fun pc => !keeps U old labels a pc) old).1 =
        new.flatten ∧ (∃ stop', Follows U entry new.flatten stop') ∧
      Relocated U labels (unpinned U old labels a) old new (dynamicBaseBoundaries a) := by
  have org := (not_or.mp (relocationHazards_eq_nil.mp safe)).1
  obtain ⟨same, follows'⟩ := rewrite_follows labels follows
    (fun s here isOrg => org ⟨s, here, isOrg⟩) (unpinned U old labels a)
  exact ⟨_, same, follows', relocated_of follows named⟩

end

/-- A skip, an `LD` folded with the `ADD` behind it, and a load of a register into itself. -/
def compacted : List Statement :=
  [⟨1, none, some ['S', 'E'], [['V', '0'], ['1']], 0x200, 2⟩,
    ⟨2, none, some ['L', 'D'], [['V', '1'], ['1']], 0x202, 2⟩,
    ⟨3, none, some ['L', 'D'], [['V', '2'], ['5']], 0x204, 2⟩,
    ⟨4, none, some ['A', 'D', 'D'], [['V', '2'], ['1']], 0x206, 2⟩,
    ⟨5, none, some ['L', 'D'], [['V', '3'], ['V', '3']], 0x208, 2⟩,
    ⟨6, some ['L'], some ['J', 'P'], [['L']], 0x20a, 2⟩]

def compactedLabels : Labels := [(['L'], 0x20a)]

theorem rewrite_relocates_skip :
    ∃ a, analyze ascii compactedLabels compacted = some a ∧ ∃ new,
      layOut entry (rewrite ascii compactedLabels
        (fun pc => !keeps ascii compacted compactedLabels a pc) compacted).1 = new.flatten ∧
      (∃ stop', Follows ascii entry new.flatten stop') ∧
      Relocated ascii compactedLabels (unpinned ascii compacted compactedLabels a) compacted new
        (dynamicBaseBoundaries a) := by
  have safe : (analyze ascii compactedLabels compacted).elim false (fun a =>
      relocationHazards ascii compacted compactedLabels a == []) = true := by
    decide +kernel
  cases analyzed : analyze ascii compactedLabels compacted with
  | none =>
    rw [analyzed] at safe
    cases safe
  | some a =>
    rw [analyzed] at safe
    have cases {P : Statement → Prop} (all : List.Forall P compacted) : ∀ s ∈ compacted, P s :=
      List.forall_iff_forall_mem.mp all
    obtain ⟨stop, follows⟩ := @layOut_follows ascii compacted entry
      (cases ⟨fun _ => rfl, fun _ => rfl, fun _ => rfl, fun _ => rfl, fun _ => rfl, fun _ => rfl⟩)
    refine ⟨a, rfl, rewrite_relocates follows (cases ?_) (beq_iff_eq.mp safe)⟩
    exact ⟨nofun, nofun, nofun, nofun, nofun, fun l isLabel => by cases isLabel; rfl⟩

end

end ChipEight.Opt
