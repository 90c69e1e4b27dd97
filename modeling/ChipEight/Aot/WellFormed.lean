import ChipEight.Aot.Stores
import ChipEight.Library.Numeral
import ChipEight.Library.Straight

/-! The emitted function is well formed.

The names of one word differ by letter or register, and the two masks say which of them are
defined (`Tracked`); names of different words differ by the address they print.
-/

set_option autoImplicit false

namespace ChipEight.Aot

open Straight

/-! ## What is printed -/

/-- `%x` -/
def hex (n : Nat) : List Char := Nat.toDigits 16 n

def Name.text : Name → List Char
  | .pc => ['p', 'c']
  | .stop w => 's' :: 't' :: 'o' :: 'p' :: hex w.toNat
  | .r w reg => 'r' :: hex w.toNat ++ '_' :: hex reg.toNat
  | .v w reg => 'v' :: hex w.toNat ++ '_' :: hex reg.toNat
  | .c w => 'c' :: hex w.toNat
  | .p w => 'p' :: hex w.toNat
  | .a w => 'a' :: hex w.toNat
  | .z w => 'z' :: hex w.toNat
  | .j w => 'j' :: hex w.toNat

def Label.text : Label → List Char
  | .entry => ['e', 'n', 't', 'r', 'y']
  | .dispatch => ['d', 'i', 's', 'p', 'a', 't', 'c', 'h']
  | .pc w => 'p' :: 'c' :: hex w.toNat
  | .op w => 'o' :: 'p' :: hex w.toNat
  | .exit => ['e', 'x', 'i', 't']

/-- One statement of the function. -/
inductive Line where
  | label (l : Label)
  | instr (i : Instr)
  | term (t : Terminator)
  deriving DecidableEq, Repr

def BasicBlock.lines (b : BasicBlock) : List Line :=
  .label b.label :: (b.body.map .instr ++ [.term b.term])

/-- The statements between `{` and `}`. -/
def Program.lines (prog : Program) : List Line := prog.flatMap BasicBlock.lines

/-- Cut the statements at the labels: those above the first one, and what each label opens. -/
def segments : List Line → List Line × List (Label × List Line)
  | [] => ([], [])
  | .label l :: rest => ([], (l, (segments rest).1) :: (segments rest).2)
  | line :: rest => (line :: (segments rest).1, (segments rest).2)

/-! ## Definitions, uses and targets -/

/-- The name on the left of `=`. -/
def Instr.dst : Instr → Option Name
  | .retire dst => some dst
  | .call _ => none
  | .getelementptr dst _ => some dst
  | .load dst _ => some dst
  | .loadPc dst => some dst
  | .icmp dst _ _ _ => some dst
  | .select dst _ _ _ => some dst
  | .add dst _ _ => some dst
  | .zext dst _ => some dst
  | .store _ _ => none
  | .storePc _ => none
  | .storeAddr _ => none

def Operand.uses : Operand → List Name
  | .lit _ => []
  | .name n => [n]

def Instr.uses : Instr → List Name
  | .retire _ => []
  | .call _ => []
  | .getelementptr _ _ => []
  | .load _ ptr => [ptr]
  | .loadPc _ => []
  | .icmp _ _ a b => a.uses ++ b.uses
  | .select _ cond _ _ => [cond]
  | .add _ a b => a.uses ++ b.uses
  | .zext _ src => [src]
  | .store v ptr => v.uses ++ [ptr]
  | .storePc v => v.uses
  | .storeAddr v => v.uses

def Terminator.uses : Terminator → List Name
  | .br _ => []
  | .brIf cond _ _ => [cond]
  | .switch on _ _ => [on]
  | .ret => []

def Terminator.targets : Terminator → List Label
  | .br target => [target]
  | .brIf _ yes no => [yes, no]
  | .switch _ default cases => default :: cases.map Prod.snd
  | .ret => []

def Terminator.cases : Terminator → List (Word × Label)
  | .switch _ _ cases => cases
  | _ => []

def Program.labels (prog : Program) : List Label := prog.map BasicBlock.label

def Program.names (prog : Program) : List Name :=
  prog.flatMap fun b => definitions Instr.dst b.body

def Program.cases (prog : Program) : List (Word × Label) := prog.flatMap fun b => b.term.cases

structure WellFormed (prog : Program) : Prop where
  /-- Every statement belongs to a block, and a block's last statement is its one terminator.
  A `BasicBlock` has this shape, so every `Program` satisfies it. -/
  terminated : (segments prog.lines).1 = [] ∧
    ∀ s ∈ (segments prog.lines).2, ∃ (body : List Instr) (t : Terminator),
      s.2 = body.map .instr ++ [.term t]
  labels : (prog.labels.map Label.text).Nodup
  targets : ∀ b ∈ prog, ∀ l ∈ b.term.targets, (prog.labels.map Label.text).count l.text = 1
  names : (prog.names.map Name.text).Nodup
  /-- In a block uses stand below definitions. -/
  uses : ∀ b ∈ prog, Ssa Instr.dst Instr.uses b.body ∧
    ∀ n ∈ b.term.uses, n ∈ definitions Instr.dst b.body
  apart : ∀ n ∈ prog.names, ∀ l ∈ prog.labels, n.text ≠ l.text

/-- An even address of the ROM. -/
def EvenAddress (rom : List Byte) (w : Word) : Prop := InRom rom w.toNat ∧ w.toNat % 2 = 0

instance (rom : List Byte) (w : Word) : Decidable (EvenAddress rom w) :=
  inferInstanceAs (Decidable (_ ∧ _))

/-- The words of the ROM are what is lowered. -/
structure Covers (rom : List Byte) (prog : Program) : Prop where
  cases : ∀ w, (prog.cases.filter fun c => c.1 = w) =
    if EvenAddress rom w then [(w, .pc w)] else []
  safepoints : ∀ w, (prog.filter fun b => b.label = .pc w) =
    if EvenAddress rom w then [⟨.pc w, [.retire (.stop w)], .brIf (.stop w) .exit (.op w)⟩] else []
  lowered : ∀ w, (prog.filter fun b => b.label = .op w) =
    if EvenAddress rom w then
      [⟨.op w, (lowered w (romWord rom w)).1, (lowered w (romWord rom w)).2⟩]
    else []

/-! ## Texts -/

/-- An address that `%x` prints with three digits. -/
def ThreeDigits (w : Word) : Prop := 256 ≤ w.toNat ∧ w.toNat < 4096

theorem hex_length {w : Word} (three : ThreeDigits w) : (hex w.toNat).length = 3 := by
  have atMost (k : Nat) (begun : 0 < k) : (hex w.toNat).length ≤ k ↔ w.toNat < 16 ^ k :=
    Nat.length_toDigits_le_iff (by decide) begun
  apply Nat.le_antisymm ((atMost 3 (by decide)).mpr three.2)
  apply Nat.lt_of_not_le
  intro short
  exact absurd ((atMost 2 (by decide)).mp short) (Nat.not_lt.mpr three.1)

theorem hex_injective {n m : Nat} (same : hex n = hex m) : n = m :=
  Numeral.toDigits_injective (by decide) (Nat.le_refl 16) same

theorem hex_word {v w : Word} (same : hex v.toNat = hex w.toNat) : v = w :=
  BitVec.eq_of_toNat_eq (hex_injective same)

theorem hex_register {v w : Word} (threeV : ThreeDigits v) (threeW : ThreeDigits w) {r q : Reg}
    (same : hex v.toNat ++ '_' :: hex r.toNat = hex w.toNat ++ '_' :: hex q.toNat) :
    v = w ∧ r = q := by
  have lengths := (hex_length threeV).trans (hex_length threeW).symm
  obtain ⟨address, register⟩ := List.append_inj same lengths
  exact ⟨hex_word address, BitVec.eq_of_toNat_eq (hex_injective (List.cons.inj register).2)⟩

/-- The address a name prints. -/
def Name.address : Name → Option Word
  | .pc => none
  | .stop w => some w
  | .r w _ => some w
  | .v w _ => some w
  | .c w => some w
  | .p w => some w
  | .a w => some w
  | .z w => some w
  | .j w => some w

def Label.address : Label → Option Word
  | .entry => none
  | .dispatch => none
  | .pc w => some w
  | .op w => some w
  | .exit => none

theorem Name.text_injective {n m : Name} (left : ∀ w, n.address = some w → ThreeDigits w)
    (right : ∀ w, m.address = some w → ThreeDigits w) (same : n.text = m.text) : n = m := by
  -- The letters in front tell most pairs apart.
  cases n <;> cases m <;> simp [Name.text] at same
  case pc.pc => rfl
  -- `%pc` would be `%p` with the one digit `c`.
  case pc.p w =>
    have digits := hex_length (right w rfl)
    rw [← same] at digits
    cases digits
  case p.pc w =>
    have digits := hex_length (left w rfl)
    rw [same] at digits
    cases digits
  case r.r v r w q =>
    obtain ⟨rfl, rfl⟩ := hex_register (left v rfl) (right w rfl) same
    rfl
  case v.v v r w q =>
    obtain ⟨rfl, rfl⟩ := hex_register (left v rfl) (right w rfl) same
    rfl
  all_goals rw [hex_word same]

theorem Label.text_injective {l k : Label} (same : l.text = k.text) : l = k := by
  cases l <;> cases k <;> simp [Label.text] at same
  case pc.pc => rw [hex_word same]
  case op.op => rw [hex_word same]
  all_goals rfl

theorem texts_apart {n : Name} {l : Label} (left : ∀ w, n.address = some w → ThreeDigits w)
    (right : ∀ w, l.address = some w → ThreeDigits w) : n.text ≠ l.text := by
  intro same
  cases n <;> cases l <;> simp [Name.text, Label.text] at same
  case pc.pc w => exact Nat.toDigits_ne_nil same
  -- The digits of `%p` would begin with the `c` of the label.
  case p.pc v w =>
    have digits := hex_length (left v rfl)
    rw [same, List.length_cons, hex_length (right w rfl)] at digits
    cases digits

/-! ## Blocks -/

theorem segments_body (body : List Instr) (t : Terminator) (rest : List Line) :
    segments (body.map .instr ++ .term t :: rest) =
      (body.map .instr ++ .term t :: (segments rest).1, (segments rest).2) := by
  induction body with
  | nil => rfl
  | cons i body ih =>
    rw [List.map_cons, List.cons_append, segments, ih]
    · rfl
    · intro l
      exact Line.noConfusion

theorem segments_lines (prog : Program) :
    segments prog.lines =
      ([], prog.map fun b => (b.label, b.body.map .instr ++ [.term b.term])) := by
  induction prog with
  | nil => rfl
  | cons b prog ih =>
    have first : Program.lines (b :: prog) =
        .label b.label :: (b.body.map .instr ++ .term b.term :: Program.lines prog) := by
      simp [Program.lines, BasicBlock.lines]
    rw [first, segments, segments_body, ih]
    rfl

theorem lines_terminated (prog : Program) : (segments prog.lines).1 = [] ∧
    ∀ s ∈ (segments prog.lines).2, ∃ (body : List Instr) (t : Terminator),
      s.2 = body.map .instr ++ [.term t] := by
  rw [segments_lines]
  refine ⟨rfl, ?_⟩
  intro s mem
  obtain ⟨b, -, rfl⟩ := List.mem_map.mp mem
  exact ⟨b.body, b.term, rfl⟩

/-! ## One lowered word -/

namespace Printed

/-- The names printed so far. -/
def names (t : Printed) : List Name := definitions Instr.dst t.body

theorem mem_names_print (t : Printed) (i : Instr) (n : Name) :
    n ∈ (t.print i).names ↔ n ∈ t.names ∨ i.dst = some n :=
  mem_definitions_snoc t.body i n

/-- The code so far may be continued. -/
structure Sound (pc : Word) (t : Printed) : Prop where
  ssa : Ssa Instr.dst Instr.uses t.body
  own : ∀ n ∈ t.names, n.address = some pc ∧ n ≠ .stop pc

theorem Sound.start (pc : Word) : Sound pc start where
  ssa := .nil
  own := by
    intro n mem
    cases mem

theorem Sound.effect {pc : Word} {t : Printed} (sound : Sound pc t) {i : Instr}
    (silent : i.dst = none) (known : ∀ n ∈ i.uses, n ∈ t.names) : Sound pc (t.print i) where
  ssa := sound.ssa.effect silent known
  own := by
    intro n mem
    rcases (mem_names_print t i n).mp mem with old | new
    · exact sound.own n old
    · rw [silent] at new
      cases new

theorem Sound.plain {pc : Word} {t : Printed} (sound : Sound pc t) {i : Instr}
    (silent : i.dst = none) (constant : i.uses = []) : Sound pc (t.print i) := by
  apply sound.effect silent
  rw [constant]
  intro n mem
  cases mem

theorem Sound.define {pc : Word} {t : Printed} (sound : Sound pc t) {i : Instr} {n : Name}
    (defines : i.dst = some n) (own : n.address = some pc ∧ n ≠ .stop pc) (fresh : n ∉ t.names)
    (known : ∀ m ∈ i.uses, m ∈ t.names) : Sound pc (t.print i) where
  ssa := by
    apply sound.ssa.snoc known
    intro m defined
    rw [← Option.some.inj (defines.symm.trans defined)]
    exact fresh
  own := by
    intro m mem
    rcases (mem_names_print t i m).mp mem with old | new
    · exact sound.own m old
    · rw [← Option.some.inj (defines.symm.trans new)]
      exact own

/-- The masks say which names are defined, and there are no others. -/
structure Tracked (pc : Word) (t : Printed) : Prop where
  sound : Sound pc t
  pointers : ∀ q, .r pc q ∈ t.names ↔ t.ptrMask q = true
  values : ∀ q, .v pc q ∈ t.names ↔ t.loadMask q = true
  only : ∀ n ∈ t.names, (∃ q, n = .r pc q) ∨ ∃ q, n = .v pc q

theorem Tracked.start (pc : Word) : Tracked pc start where
  sound := .start pc
  pointers := by simp [Printed.names, Printed.start]
  values := by simp [Printed.names, Printed.start]
  only := by
    intro n mem
    cases mem

theorem Tracked.regptr {pc : Word} {t : Printed} (tracked : Tracked pc t) (r : Reg) :
    Tracked pc (t.regptr pc r) := by
  by_cases masked : t.ptrMask r = true
  · rw [regptr_known pc masked]
    exact tracked
  have printed : (t.regptr pc r).body = (t.print (.getelementptr (.r pc r) r)).body := by
    rw [Printed.regptr, if_neg masked]
  have names (n : Name) : n ∈ (t.regptr pc r).names ↔ n ∈ t.names ∨ Name.r pc r = n := by
    rw [Printed.names, printed]
    exact (mem_names_print t _ n).trans (by simp [Instr.dst])
  have fresh : Name.r pc r ∉ t.names := by
    rw [tracked.pointers]
    exact masked
  have sound := tracked.sound.define (i := .getelementptr (.r pc r) r) rfl
    ⟨rfl, Name.noConfusion⟩ fresh (fun _ mem => absurd mem List.not_mem_nil)
  refine ⟨⟨printed ▸ sound.ssa, ?_⟩, ?_, ?_, ?_⟩
  · intro n mem
    rw [Printed.names, printed] at mem
    exact sound.own n mem
  · intro q
    have same : Name.r pc r = .r pc q ↔ q = r :=
      ⟨fun same => (Name.r.inj same).2.symm, fun same => same ▸ rfl⟩
    rw [names, tracked.pointers, regptr_ptrMask, same, or_comm]
  · intro q
    rw [names, tracked.values, regptr_loadMask]
    simp
  · intro n mem
    rcases (names n).mp mem with old | rfl
    · exact tracked.only n old
    · exact .inl ⟨r, rfl⟩

theorem Tracked.loadreg {pc : Word} {t : Printed} (tracked : Tracked pc t) (r : Reg) :
    Tracked pc (t.loadreg pc r) := by
  have tracked' := tracked.regptr r
  have pointer := (tracked'.pointers r).mpr ((regptr_ptrMask t pc r r).mpr (.inl rfl))
  by_cases masked : (t.regptr pc r).loadMask r = true
  · have same : t.loadreg pc r = t.regptr pc r := if_pos masked
    rw [same]
    exact tracked'
  have printed : (t.loadreg pc r).body =
      ((t.regptr pc r).print (.load (.v pc r) (.r pc r))).body := by
    rw [Printed.loadreg, if_neg masked]
  have names (n : Name) :
      n ∈ (t.loadreg pc r).names ↔ n ∈ (t.regptr pc r).names ∨ Name.v pc r = n := by
    rw [Printed.names, printed]
    exact (mem_names_print _ _ n).trans (by simp [Instr.dst])
  have fresh : Name.v pc r ∉ (t.regptr pc r).names := by
    rw [tracked'.values]
    exact masked
  -- The pointer the load reads is defined by now.
  have sound := tracked'.sound.define (i := .load (.v pc r) (.r pc r)) rfl
    ⟨rfl, Name.noConfusion⟩ fresh (by simpa [Instr.uses] using pointer)
  refine ⟨⟨printed ▸ sound.ssa, ?_⟩, ?_, ?_, ?_⟩
  · intro n mem
    rw [Printed.names, printed] at mem
    exact sound.own n mem
  · intro q
    rw [names, tracked'.pointers, regptr_ptrMask, loadreg_ptrMask]
    simp
  · intro q
    have same : Name.v pc r = .v pc q ↔ q = r :=
      ⟨fun same => (Name.v.inj same).2.symm, fun same => same ▸ rfl⟩
    rw [names, tracked'.values, regptr_loadMask, loadreg_loadMask, same, or_comm]
  · intro n mem
    rcases (names n).mp mem with old | rfl
    · exact tracked'.only n old
    · exact .inr ⟨r, rfl⟩

theorem Tracked.fresh {pc : Word} {t : Printed} (tracked : Tracked pc t) {n : Name}
    (pointer : ∀ q, n ≠ .r pc q) (value : ∀ q, n ≠ .v pc q) : n ∉ t.names := by
  intro mem
  rcases tracked.only n mem with ⟨q, same⟩ | ⟨q, same⟩
  · exact pointer q same
  · exact value q same

end Printed

/-- What the function needs of the code of one word. -/
structure Emitted (pc : Word) (code : List Instr × Terminator) : Prop where
  ssa : Ssa Instr.dst Instr.uses code.1
  own : ∀ n ∈ definitions Instr.dst code.1, n.address = some pc ∧ n ≠ .stop pc
  leaves : code.2 = .br .dispatch ∨ code.2 = .br .exit

namespace Printed

variable {pc : Word} {t : Printed}

theorem Sound.br (sound : Sound pc t) : Emitted pc (t.br .dispatch) :=
  ⟨sound.ssa, sound.own, .inl rfl⟩

theorem Sound.next (sound : Sound pc t) : Emitted pc (t.next pc) :=
  (sound.plain (i := .storePc (.lit (.i16 (pc + 2)))) rfl rfl).br

theorem sound_call (c : Callee) : Sound pc (start.print (.call c)) :=
  (Sound.start pc).plain rfl rfl

theorem Tracked.skipTail (tracked : Tracked pc t) (eq : Bool) {a b : Operand}
    (known : ∀ n ∈ a.uses ++ b.uses, n ∈ t.names) : Emitted pc (t.skipTail pc eq a b) := by
  have compared : Sound pc (t.print (.icmp (.c pc) eq a b)) :=
    tracked.sound.define rfl ⟨rfl, Name.noConfusion⟩
      (tracked.fresh (fun _ => Name.noConfusion) (fun _ => Name.noConfusion)) known
  have condition : Name.c pc ∈ (t.print (.icmp (.c pc) eq a b)).names :=
    (mem_names_print _ _ _).mpr (.inr rfl)
  have fresh : Name.p pc ∉ (t.print (.icmp (.c pc) eq a b)).names := by
    intro mem
    rcases (mem_names_print _ _ _).mp mem with old | new
    · exact tracked.fresh (fun _ => Name.noConfusion) (fun _ => Name.noConfusion) old
    · cases new
  have selected := compared.define (i := .select (.p pc) (.c pc) (pc + 4) (pc + 2)) rfl
    ⟨rfl, Name.noConfusion⟩ fresh (by simpa [Instr.uses] using condition)
  refine (selected.effect (i := .storePc (.name (.p pc))) rfl ?_).br
  simp [Instr.uses, Operand.uses, mem_names_print, Instr.dst]

theorem Tracked.value (tracked : Tracked pc t) (r : Reg) :
    Name.v pc r ∈ (t.loadreg pc r).names :=
  ((tracked.loadreg r).values r).mpr ((loadreg_loadMask t pc r r).mpr (.inl rfl))

theorem emitted_skipImmediate (eq : Bool) (x : Reg) (kk : Byte) :
    Emitted pc ((start.loadreg pc x).skipTail pc eq (.name (.v pc x)) (.lit (.i8 kk))) := by
  apply ((Tracked.start pc).loadreg x).skipTail eq
  intro n mem
  rw [List.mem_singleton.mp mem]
  exact (Tracked.start pc).value x

theorem emitted_skipRegister (eq : Bool) (x y : Reg) :
    Emitted pc (((start.loadreg pc x).loadreg pc y).skipTail pc eq (.name (.v pc x))
      (.name (.v pc y))) := by
  have first := (Tracked.start pc).loadreg x
  have second := first.loadreg y
  apply second.skipTail eq
  -- Where the registers are the same, one load defines both operands.
  have left : Name.v pc x ∈ ((start.loadreg pc x).loadreg pc y).names := by
    rw [second.values, loadreg_loadMask]
    exact .inr ((first.values x).mp ((Tracked.start pc).value x))
  have right : Name.v pc y ∈ ((start.loadreg pc x).loadreg pc y).names := first.value y
  simpa [Operand.uses] using And.intro left right

theorem emitted_ld (x : Reg) (kk : Byte) :
    Emitted pc (((start.regptr pc x).print (.store (.lit (.i8 kk)) (.r pc x))).next pc) := by
  have tracked := (Tracked.start pc).regptr x
  have pointer := (tracked.pointers x).mpr ((regptr_ptrMask start pc x x).mpr (.inl rfl))
  refine (tracked.sound.effect rfl ?_).next
  simpa [Instr.uses, Operand.uses] using pointer

theorem emitted_add (x : Reg) (kk : Byte) :
    Emitted pc (((((start.loadreg pc x).print
      (.add (.a pc) (.name (.v pc x)) (.lit (.i8 kk)))).regptr pc x).print
        (.store (.name (.a pc)) (.r pc x))).next pc) := by
  have tracked := (Tracked.start pc).loadreg x
  have masked := (loadreg_ptrMask start pc x x).mpr (.inl rfl)
  have added := tracked.sound.define (i := .add (.a pc) (.name (.v pc x)) (.lit (.i8 kk))) rfl
    ⟨rfl, Name.noConfusion⟩
    (tracked.fresh (fun _ => Name.noConfusion) (fun _ => Name.noConfusion))
    (by simpa [Instr.uses, Operand.uses] using (Tracked.start pc).value x)
  -- The load has printed the pointer.
  have known : ((start.loadreg pc x).print
      (.add (.a pc) (.name (.v pc x)) (.lit (.i8 kk)))).ptrMask x = true := masked
  rw [regptr_known pc known]
  refine (added.effect rfl ?_).next
  have pointer := (tracked.pointers x).mpr masked
  simpa [Instr.uses, Operand.uses, mem_names_print, Instr.dst] using pointer

theorem emitted_jpV0 (nnn : Word) :
    Emitted pc (((((start.loadreg pc 0#4).print (.zext (.z pc) (.v pc 0#4))).print
      (.add (.j pc) (.lit (.i16 nnn)) (.name (.z pc)))).print
        (.storePc (.name (.j pc)))).br .dispatch) := by
  have tracked := (Tracked.start pc).loadreg 0#4
  have extended := tracked.sound.define (i := .zext (.z pc) (.v pc 0#4)) rfl
    ⟨rfl, Name.noConfusion⟩
    (tracked.fresh (fun _ => Name.noConfusion) (fun _ => Name.noConfusion))
    (by simpa [Instr.uses] using (Tracked.start pc).value 0#4)
  have fresh : Name.j pc ∉ ((start.loadreg pc 0#4).print (.zext (.z pc) (.v pc 0#4))).names := by
    intro mem
    rcases (mem_names_print _ _ _).mp mem with old | new
    · exact tracked.fresh (fun _ => Name.noConfusion) (fun _ => Name.noConfusion) old
    · cases new
  have added := extended.define (i := .add (.j pc) (.lit (.i16 nnn)) (.name (.z pc))) rfl
    ⟨rfl, Name.noConfusion⟩ fresh
    (by simp [Instr.uses, Operand.uses, mem_names_print, Instr.dst])
  refine (added.effect rfl ?_).br
  simp [Instr.uses, Operand.uses, mem_names_print, Instr.dst]

end Printed

open Printed in
theorem lowered_emitted (pc op : Word) : Emitted pc (lowered pc op) := by
  have storePc (w : Word) : Sound pc (start.print (.storePc (.lit (.i16 w)))) :=
    (Sound.start pc).plain rfl rfl
  unfold lowered
  dsimp only
  split
  · exact (sound_call .clear).next
  split
  · exact (sound_call .return).br
  split
  · exact (storePc _).br
  · exact (storePc _).br
  · exact (sound_call _).br
  · exact emitted_skipImmediate true _ _
  · exact emitted_skipImmediate false _ _
  · exact emitted_skipRegister true _ _
  · exact emitted_skipRegister false _ _
  · exact emitted_ld _ _
  · exact emitted_add _ _
  · exact (sound_call _).next
  · exact ((Sound.start pc).plain (i := .storeAddr (.lit (.i16 (target op)))) rfl rfl).next
  · exact emitted_jpV0 _
  · exact (sound_call _).next
  · exact (sound_call _).next
  · exact (sound_call _).br
  · exact (sound_call _).next
  · have bad := @sound_call pc (.bad op pc)
    exact ⟨bad.ssa, bad.own, .inr rfl⟩

/-! ## The whole function -/

theorem romAddresses_nodup {z : Nat} (fits : z ≤ 3584) : (romAddresses z).Nodup := by
  apply List.Nodup.map_on _ List.nodup_range
  intro i small j small' same
  have small := List.mem_range.mp small
  have small' := List.mem_range.mp small'
  have base : entrypoint.toNat = 512 := rfl
  have value := congrArg BitVec.toNat same
  rw [BitVec.toNat_add, BitVec.toNat_add, BitVec.toNat_ofNat, BitVec.toNat_ofNat, base] at value
  omega

theorem flatMap_at {α : Type} {addresses : List Word} (once : addresses.Nodup) (w : Word)
    {f : Word → List α} (other : ∀ a, a ≠ w → f a = []) :
    addresses.flatMap f = if w ∈ addresses then f w else [] := by
  induction addresses with
  | nil => rfl
  | cons a as ih =>
    obtain ⟨new, once⟩ := List.nodup_cons.mp once
    rw [List.flatMap_cons, ih once]
    by_cases here : a = w
    · subst here
      rw [if_neg new, if_pos List.mem_cons_self, List.append_nil]
    · simp [other a here, Ne.symm here]

theorem flatMap_nodup {α : Type} {addresses : List Word} (once : addresses.Nodup)
    {f : Word → List α} (each : ∀ a, (f a).Nodup) (address : α → Option Word)
    (own : ∀ a, ∀ x ∈ f a, address x = some a) : (addresses.flatMap f).Nodup := by
  rw [List.nodup_flatMap]
  refine ⟨fun a _ => each a, once.imp ?_⟩
  intro a b differ x left right
  exact differ (Option.some.inj ((own a x left).symm.trans (own b x right)))

theorem labels_eq (rom : List Byte) : (chip8AotRun rom).labels =
    .entry :: .dispatch :: (romAddresses rom.length).flatMap (fun pc => [.pc pc, .op pc]) ++
      [.exit] := by
  simp [Program.labels, chip8AotRun, List.map_flatMap, block]

theorem names_eq (rom : List Byte) : (chip8AotRun rom).names =
    .pc :: (romAddresses rom.length).flatMap fun pc =>
      .stop pc :: definitions Instr.dst (lowered pc (romWord rom pc)).1 := by
  simp [Program.names, chip8AotRun, List.flatMap_assoc, block, definitions, Instr.dst]

theorem cases_eq (rom : List Byte) : (chip8AotRun rom).cases =
    (romAddresses rom.length).map fun pc => (pc, .pc pc) := by
  have lowered (pc op : Word) : (lowered pc op).2.cases = [] := by
    rcases (lowered_emitted pc op).leaves with leaves | leaves <;> rw [leaves] <;> rfl
  have safepoint (pc : Word) : (Terminator.brIf (.stop pc) .exit (.op pc)).cases = [] := rfl
  have switch (cases : List (Word × Label)) : (Terminator.switch .pc .exit cases).cases = cases :=
    rfl
  have entry : (Terminator.br .dispatch).cases = [] := rfl
  have exit : Terminator.ret.cases = [] := rfl
  simp [Program.cases, chip8AotRun, List.flatMap_assoc, block, lowered, safepoint, switch, entry,
    exit]

theorem labels_nodup {rom : List Byte} (fits : rom.length ≤ 3584) :
    (chip8AotRun rom).labels.Nodup := by
  have words : ((romAddresses rom.length).flatMap fun pc => [Label.pc pc, .op pc]).Nodup := by
    apply flatMap_nodup (romAddresses_nodup fits) _ Label.address
    · simp [Label.address]
    · simp
  have exit (l : Label) : l ∈ ((romAddresses rom.length).flatMap fun pc => [Label.pc pc, .op pc]) →
      l ≠ .exit := by
    rintro mem rfl
    simp at mem
  rw [labels_eq]
  simpa [List.nodup_append, words] using exit

theorem names_nodup {rom : List Byte} (fits : rom.length ≤ 3584) :
    (chip8AotRun rom).names.Nodup := by
  rw [names_eq, List.nodup_cons]
  constructor
  · simp only [List.mem_flatMap, List.mem_cons]
    rintro ⟨pc, -, same | mem⟩
    · cases same
    · cases ((lowered_emitted pc _).own .pc mem).1
  · apply flatMap_nodup (romAddresses_nodup fits) _ Name.address
    · intro pc n mem
      rcases List.mem_cons.mp mem with rfl | mem
      · rfl
      · exact ((lowered_emitted pc _).own n mem).1
    · intro pc
      have emitted := lowered_emitted pc (romWord rom pc)
      exact List.nodup_cons.mpr ⟨fun mem => (emitted.own _ mem).2 rfl, emitted.ssa.once⟩

theorem mem_chip8AotRun {rom : List Byte} {b : BasicBlock} (mem : b ∈ chip8AotRun rom) :
    b = ⟨.entry, [], .br .dispatch⟩ ∨
    b = ⟨.dispatch, [.loadPc .pc],
      .switch .pc .exit ((romAddresses rom.length).map fun pc => (pc, .pc pc))⟩ ∨
    (∃ pc ∈ romAddresses rom.length,
      b = ⟨.pc pc, [.retire (.stop pc)], .brIf (.stop pc) .exit (.op pc)⟩ ∨
      b = ⟨.op pc, (lowered pc (romWord rom pc)).1, (lowered pc (romWord rom pc)).2⟩) ∨
    b = ⟨.exit, [], .ret⟩ := by
  simpa [chip8AotRun, block, or_assoc] using mem

theorem targets_labelled {rom : List Byte} {b : BasicBlock} (mem : b ∈ chip8AotRun rom) {l : Label}
    (target : l ∈ b.term.targets) : l ∈ (chip8AotRun rom).labels := by
  rw [labels_eq]
  -- The entry, the dispatcher, a safepoint, a lowered word and the exit.
  rcases mem_chip8AotRun mem with rfl | rfl | ⟨pc, known, rfl | rfl⟩ | rfl
  · simp_all [Terminator.targets]
  · simp only [Terminator.targets, List.map_map, List.mem_cons, List.mem_map] at target
    rcases target with rfl | ⟨pc, known, rfl⟩
    · simp
    · simp [known]
  · simp only [Terminator.targets, List.mem_cons, List.not_mem_nil, or_false] at target
    rcases target with rfl | rfl
    · simp
    · simp [known]
  · rcases (lowered_emitted pc (romWord rom pc)).leaves with leaves | leaves
    · rw [leaves] at target
      simp_all [Terminator.targets]
    · rw [leaves] at target
      simp_all [Terminator.targets]
  · cases target

theorem block_ssa {rom : List Byte} {b : BasicBlock} (mem : b ∈ chip8AotRun rom) :
    Ssa Instr.dst Instr.uses b.body ∧ ∀ n ∈ b.term.uses, n ∈ definitions Instr.dst b.body := by
  -- The dispatcher and a safepoint consist of one instruction, which their terminator reads.
  have one (i : Instr) (constant : i.uses = []) : Ssa Instr.dst Instr.uses [i] := by
    apply Ssa.nil.snoc
    · simp [constant]
    · simp
  rcases mem_chip8AotRun mem with rfl | rfl | ⟨pc, -, rfl | rfl⟩ | rfl
  · exact ⟨.nil, fun _ mem => nomatch mem⟩
  · exact ⟨one _ rfl, fun _ mem => mem⟩
  · exact ⟨one _ rfl, fun _ mem => mem⟩
  · have emitted := lowered_emitted pc (romWord rom pc)
    refine ⟨emitted.ssa, ?_⟩
    rcases emitted.leaves with leaves | leaves <;> rw [leaves] <;> exact fun _ mem => nomatch mem
  · exact ⟨.nil, fun _ mem => nomatch mem⟩

section
variable {rom : List Byte} (fits : rom.length ≤ 3584) (even : rom.length % 2 = 0)

include fits even

theorem mem_romAddresses_iff {w : Word} : w ∈ romAddresses rom.length ↔ EvenAddress rom w :=
  ⟨fun known => (romAddresses_mem fits even known).symm, fun h => mem_romAddresses h.2 h.1⟩

theorem romAddresses_digits {w : Word} (known : w ∈ romAddresses rom.length) : ThreeDigits w := by
  obtain ⟨-, low, high⟩ := romAddresses_mem fits even known
  have base : entrypoint.toNat = 512 := rfl
  unfold ThreeDigits
  omega

theorem labels_digits {l : Label} (mem : l ∈ (chip8AotRun rom).labels) {w : Word}
    (prints : l.address = some w) : ThreeDigits w := by
  rw [labels_eq] at mem
  simp only [List.cons_append, List.mem_cons, List.mem_append, List.mem_flatMap,
    List.not_mem_nil, or_false] at mem
  rcases mem with rfl | rfl | ⟨pc, known, rfl | rfl⟩ | rfl <;> cases prints
  · exact romAddresses_digits fits even known
  · exact romAddresses_digits fits even known

theorem names_digits {n : Name} (mem : n ∈ (chip8AotRun rom).names) {w : Word}
    (prints : n.address = some w) : ThreeDigits w := by
  rw [names_eq] at mem
  simp only [List.mem_cons, List.mem_flatMap] at mem
  rcases mem with rfl | ⟨pc, known, rfl | mem⟩
  · cases prints
  · cases prints
    exact romAddresses_digits fits even known
  · have own := ((lowered_emitted pc _).own n mem).1
    cases own.symm.trans prints
    exact romAddresses_digits fits even known

theorem chip8AotRun_wellFormed : WellFormed (chip8AotRun rom) := by
  have texts : ((chip8AotRun rom).labels.map Label.text).Nodup :=
    (labels_nodup fits).map fun _ _ => Label.text_injective
  refine ⟨lines_terminated _, texts, ?_, ?_, fun b mem => block_ssa mem, ?_⟩
  · intro b mem l target
    exact List.count_eq_one_of_mem texts
      (List.mem_map_of_mem (targets_labelled mem target))
  · apply (names_nodup fits).map_on
    intro n left m right same
    exact Name.text_injective (fun _ => names_digits fits even left)
      (fun _ => names_digits fits even right) same
  · intro n left l right
    exact texts_apart (fun _ => names_digits fits even left)
      (fun _ => labels_digits fits even right)

theorem filter_label {l : Label} {w : Word} (own : l = .pc w ∨ l = .op w) :
    ((chip8AotRun rom).filter fun b => b.label = l) =
      if EvenAddress rom w then (block w (romWord rom w)).filter fun b => b.label = l else [] := by
  have words : ((chip8AotRun rom).filter fun b => b.label = l) =
      (romAddresses rom.length).flatMap fun pc =>
        (block pc (romWord rom pc)).filter fun b => b.label = l := by
    rcases own with rfl | rfl <;> simp [chip8AotRun, List.filter_flatMap]
  rw [words, flatMap_at (romAddresses_nodup fits) w]
  · simp only [mem_romAddresses_iff fits even]
  · intro a other
    rcases own with rfl | rfl <;> simp [block, other]

theorem chip8AotRun_covers : Covers rom (chip8AotRun rom) := by
  refine ⟨?_, ?_, ?_⟩
  · intro w
    rw [cases_eq, List.map_eq_flatMap, List.filter_flatMap, flatMap_at (romAddresses_nodup fits) w]
    · simp only [mem_romAddresses_iff fits even]
      simp
    · intro a other
      simp [other]
  · intro w
    rw [filter_label fits even (.inl rfl)]
    simp [block]
  · intro w
    rw [filter_label fits even (.inr rfl)]
    simp [block]

end

/-- For every ROM the emitter accepts, the function it prints is well formed and has one case,
one safepoint and one lowered block for each even address. -/
theorem main_wellFormed {rom : List Byte} (nonempty : 2 ≤ rom.length) (fits : rom.length ≤ 3584)
    (even : rom.length % 2 = 0) :
    ∃ prog, main rom = some prog ∧ WellFormed prog ∧ Covers rom prog := by
  refine ⟨chip8AotRun rom, ?_, chip8AotRun_wellFormed fits even, chip8AotRun_covers fits even⟩
  have room : ¬ rom.length > memorySize - entrypoint.toNat := Nat.not_lt.mpr fits
  have whole : ¬ (rom.length = 0 ∨ rom.length % 2 = 1) := by omega
  rw [main, if_neg room, if_neg whole]

/-- `SE V0, V0` prints one load. -/
def comparesItself : List Byte := [0x50, 0x00]

theorem main_wellFormed_comparesItself :
    ∃ prog, main comparesItself = some prog ∧ WellFormed prog ∧ Covers comparesItself prog :=
  main_wellFormed (by decide) (by decide) (by decide)

example : (chip8AotRun comparesItself).names.map Name.text =
    ["pc", "stop200", "r200_0", "v200_0", "c200", "p200"].map String.toList := by decide

end ChipEight.Aot
