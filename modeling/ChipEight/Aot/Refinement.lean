import ChipEight.Aot.Emit
import ChipEight.Machine.Rom

/-! Generated programs refine the interpreter on immutable ROMs.

One pass through the dispatcher, the safepoint of a word and its lowered code matches one
pass of the interpreter's loop. What a register load has cached in a local
is described once, for whatever has been printed so far (`Loaded`).
-/

set_option autoImplicit false

namespace ChipEight.Aot

open Interpreter

section
variable {E : Type} {H : Host E}

theorem runBody_append (is js : List Instr) (f : Frame E) :
    runBody H (is ++ js) f = (runBody H is f).bind (runBody H js) := by
  induction is generalizing f with
  | nil => rfl
  | cons i is ih =>
    simp only [List.cons_append, runBody]
    cases i.run H f with
    | none => rfl
    | some g => exact ih g

/-! ## Register loads -/

/-- The code printed so far has run and every mask bit stands for a defined local. -/
structure Loaded (H : Host E) (pc : Word) (t : Printed) (f g : Frame E) : Prop where
  ran : runBody H t.body f = some g
  machine : g.machine = f.machine
  pointers : ∀ r, t.ptrMask r = true → g.locals (.r pc r) = some (.ptr r)
  values : ∀ r, t.loadMask r = true → g.locals (.v pc r) = some (.i8 (f.machine.vm.regs r))

theorem Loaded.start (pc : Word) (f : Frame E) : Loaded H pc .start f f where
  ran := rfl
  machine := rfl
  pointers := by intro r masked; cases masked
  values := by intro r masked; cases masked

theorem runBody_print {t : Printed} {f g g' : Frame E} {i : Instr}
    (ran : runBody H t.body f = some g) (next : i.run H g = some g') :
    runBody H (t.print i).body f = some g' := by
  rw [Printed.print, runBody_append, ran]
  simp only [Option.bind_some, runBody, next]

theorem regptr_known {t : Printed} {r : Reg} (pc : Word) (known : t.ptrMask r = true) :
    t.regptr pc r = t := if_pos known

theorem regptr_loadMask (t : Printed) (pc : Word) (r : Reg) :
    (t.regptr pc r).loadMask = t.loadMask := by
  unfold Printed.regptr
  split <;> rfl

theorem regptr_ptrMask (t : Printed) (pc : Word) (r q : Reg) :
    (t.regptr pc r).ptrMask q = true ↔ q = r ∨ t.ptrMask q = true := by
  unfold Printed.regptr
  split
  · rename_i masked
    constructor
    · exact Or.inr
    · rintro (rfl | was)
      · exact masked
      · exact was
  · change Function.update t.ptrMask r true q = true ↔ _
    by_cases same : q = r <;> simp [same]

theorem loadreg_ptrMask (t : Printed) (pc : Word) (r q : Reg) :
    (t.loadreg pc r).ptrMask q = true ↔ q = r ∨ t.ptrMask q = true := by
  unfold Printed.loadreg
  dsimp only
  split <;> exact regptr_ptrMask t pc r q

theorem loadreg_loadMask (t : Printed) (pc : Word) (r q : Reg) :
    (t.loadreg pc r).loadMask q = true ↔ q = r ∨ t.loadMask q = true := by
  unfold Printed.loadreg
  dsimp only
  rw [regptr_loadMask]
  split
  · rename_i masked
    rw [regptr_loadMask]
    constructor
    · exact Or.inr
    · rintro (rfl | was)
      · exact masked
      · exact was
  · change Function.update t.loadMask r true q = true ↔ _
    by_cases same : q = r <;> simp [same]

theorem Frame.set_same (f : Frame E) (n : Name) (v : Value) : (f.set n v).locals n = some v :=
  Function.update_self _ _ _

theorem Frame.set_other {n m : Name} (apart : m ≠ n) (f : Frame E) (v : Value) :
    (f.set n v).locals m = f.locals m :=
  Function.update_of_ne apart _ _

theorem Loaded.regptr {pc : Word} {t : Printed} {f g : Frame E} (h : Loaded H pc t f g) (r : Reg) :
    ∃ g', Loaded H pc (t.regptr pc r) f g' := by
  by_cases masked : t.ptrMask r = true
  · exact ⟨g, by rw [Printed.regptr, if_pos masked]; exact h⟩
  · have printed : (t.regptr pc r).body = (t.print (.getelementptr (.r pc r) r)).body := by
      rw [Printed.regptr, if_neg masked]
    refine ⟨g.set (.r pc r) (.ptr r), ?_, h.machine, ?_, ?_⟩
    · rw [printed]
      exact runBody_print h.ran rfl
    · intro q known
      by_cases same : q = r
      · subst same
        exact Frame.set_same _ _ _
      · rw [Frame.set_other (by simpa using same)]
        exact h.pointers q (((regptr_ptrMask t pc r q).mp known).resolve_left same)
    · intro q known
      rw [Frame.set_other Name.noConfusion]
      rw [regptr_loadMask] at known
      exact h.values q known

theorem Loaded.loadreg {pc : Word} {t : Printed} {f g : Frame E} (h : Loaded H pc t f g)
    (r : Reg) : ∃ g', Loaded H pc (t.loadreg pc r) f g' := by
  obtain ⟨g', h'⟩ := h.regptr r
  have pointer := h'.pointers r ((regptr_ptrMask t pc r r).mpr (.inl rfl))
  by_cases masked : (t.regptr pc r).loadMask r = true
  · exact ⟨g', by rw [Printed.loadreg, if_pos masked]; exact h'⟩
  · have printed : (t.loadreg pc r).body =
        ((t.regptr pc r).print (.load (.v pc r) (.r pc r))).body := by
      rw [Printed.loadreg, if_neg masked]
    -- The pointer is defined by now, so the load goes through.
    have next : (Instr.load (.v pc r) (.r pc r)).run H g' =
        some (g'.set (.v pc r) (.i8 (f.machine.vm.regs r))) := by
      simp only [Instr.run, pointer, h'.machine]
    refine ⟨g'.set (.v pc r) (.i8 (f.machine.vm.regs r)), ?_, h'.machine, ?_, ?_⟩
    · rw [printed]
      exact runBody_print h'.ran next
    · intro q known
      rw [Frame.set_other Name.noConfusion]
      rw [loadreg_ptrMask, ← regptr_ptrMask t pc r q] at known
      exact h'.pointers q known
    · intro q known
      by_cases same : q = r
      · subst same
        exact Frame.set_same _ _ _
      · rw [Frame.set_other (by simpa using same)]
        apply h'.values q
        rw [regptr_loadMask]
        exact ((loadreg_loadMask t pc r q).mp known).resolve_left same

/-! ## One lowered word -/

/-- The lowered code runs to the dispatcher and leaves the machine `m`. -/
def Lowers (H : Host E) (code : List Instr × Terminator) (f : Frame E) (m : Machine E) : Prop :=
  ∃ g, runBody H code.1 f = some g ∧ code.2.next g = some .dispatch ∧ g.machine = m

theorem lowers_br {t : Printed} {f g : Frame E} (ran : runBody H t.body f = some g) :
    Lowers H (t.br .dispatch) f g.machine := ⟨g, ran, rfl, rfl⟩

theorem lowers_next {t : Printed} {f g : Frame E} (pc : Word) (ran : runBody H t.body f = some g) :
    Lowers H (t.next pc) f (g.machine.mapVM (VM.setPc · (pc + 2))) := by
  have stored : (Instr.storePc (.lit (.i16 (pc + 2)))).run H g =
      some (g.setMachine (g.machine.mapVM (VM.setPc · (pc + 2)))) := rfl
  exact lowers_br (runBody_print ran stored)

/-- The value of a comparison instruction. -/
def compare (eq : Bool) (v w : Byte) : Bool := if eq then v == w else v != w

theorem lowers_skipTail {pc : Word} {t : Printed} {f g : Frame E} {a b : Operand}
    {v w : Byte} (eq : Bool) (ran : runBody H t.body f = some g)
    (left : g.eval a = some (.i8 v)) (right : g.eval b = some (.i8 w)) :
    Lowers H (t.skipTail pc eq a b) f
      (g.machine.mapVM (VM.setPc · (if compare eq v w then pc + 4 else pc + 2))) := by
  have compared : (Instr.icmp (.c pc) eq a b).run H g =
      some (g.set (.c pc) (.i1 (compare eq v w))) := by
    simp only [Instr.run, left, right, Option.bind_eq_bind, Option.bind_some, icmpValues, compare]
  generalize compare eq v w = holds at compared ⊢
  have selected : (Instr.select (.p pc) (.c pc) (pc + 4) (pc + 2)).run H
      (g.set (.c pc) (.i1 holds)) =
      some ((g.set (.c pc) (.i1 holds)).set (.p pc) (.i16 (if holds then pc + 4 else pc + 2))) := by
    simp only [Instr.run, Frame.set_same]
  have stored : (Instr.storePc (.name (.p pc))).run H
      ((g.set (.c pc) (.i1 holds)).set (.p pc) (.i16 (if holds then pc + 4 else pc + 2))) =
      some (((g.set (.c pc) (.i1 holds)).set (.p pc)
        (.i16 (if holds then pc + 4 else pc + 2))).setMachine
        (g.machine.mapVM (VM.setPc · (if holds then pc + 4 else pc + 2)))) := by
    simp only [Instr.run, Frame.eval, Frame.set_same]
    rfl
  exact lowers_br (runBody_print (runBody_print (runBody_print ran compared) selected) stored)

theorem lowers_call (c : Callee) (f : Frame E) :
    Lowers H ((Printed.start.print (.call c)).br .dispatch) f (c.run H f.machine) := by
  have called : (Instr.call c).run H f = some (f.setMachine (c.run H f.machine)) := rfl
  exact lowers_br (runBody_print (@rfl _ (runBody H Printed.start.body f)) called)

theorem lowers_callNext (pc : Word) (c : Callee) (f : Frame E) :
    Lowers H ((Printed.start.print (.call c)).next pc) f
      ((c.run H f.machine).mapVM (VM.setPc · (pc + 2))) := by
  have called : (Instr.call c).run H f = some (f.setMachine (c.run H f.machine)) := rfl
  exact lowers_next pc (runBody_print (@rfl _ (runBody H Printed.start.body f)) called)

theorem lowers_jp (nnn : Word) (f : Frame E) :
    Lowers H ((Printed.start.print (.storePc (.lit (.i16 nnn)))).br .dispatch) f
      (f.machine.mapVM (VM.setPc · nnn)) := by
  have stored : (Instr.storePc (.lit (.i16 nnn))).run H f =
      some (f.setMachine (f.machine.mapVM (VM.setPc · nnn))) := rfl
  exact lowers_br (runBody_print (@rfl _ (runBody H Printed.start.body f)) stored)

theorem lowers_ldI (pc nnn : Word) (f : Frame E) :
    Lowers H ((Printed.start.print (.storeAddr (.lit (.i16 nnn)))).next pc) f
      (f.machine.mapVM fun vm => { vm with addr := nnn }.setPc (pc + 2)) := by
  have stored : (Instr.storeAddr (.lit (.i16 nnn))).run H f =
      some (f.setMachine (f.machine.mapVM fun vm => { vm with addr := nnn })) := rfl
  exact lowers_next pc (runBody_print (@rfl _ (runBody H Printed.start.body f)) stored)

theorem lowers_skipImmediate (pc : Word) (x : Reg) (kk : Byte) (eq : Bool) (f : Frame E) :
    Lowers H ((Printed.start.loadreg pc x).skipTail pc eq (.name (.v pc x)) (.lit (.i8 kk))) f
      (f.machine.mapVM
        (VM.setPc · (if compare eq (f.machine.vm.regs x) kk then pc + 4 else pc + 2))) := by
  obtain ⟨g, loaded⟩ := (Loaded.start (H := H) pc f).loadreg x
  have value := loaded.values x ((loadreg_loadMask _ pc x x).mpr (.inl rfl))
  rw [← loaded.machine] at value ⊢
  exact lowers_skipTail eq loaded.ran value rfl

theorem lowers_skipRegister (pc : Word) (x y : Reg) (eq : Bool) (f : Frame E) :
    Lowers H (((Printed.start.loadreg pc x).loadreg pc y).skipTail pc eq
        (.name (.v pc x)) (.name (.v pc y))) f
      (f.machine.mapVM (VM.setPc · (if compare eq (f.machine.vm.regs x) (f.machine.vm.regs y)
        then pc + 4 else pc + 2))) := by
  obtain ⟨g, first⟩ := (Loaded.start (H := H) pc f).loadreg x
  obtain ⟨g, loaded⟩ := first.loadreg y
  -- The second load prints nothing when the registers are the same.
  have left := loaded.values x ((loadreg_loadMask _ pc y x).mpr
    (.inr ((loadreg_loadMask _ pc x x).mpr (.inl rfl))))
  have right := loaded.values y ((loadreg_loadMask _ pc y y).mpr (.inl rfl))
  rw [← loaded.machine] at left right ⊢
  exact lowers_skipTail eq loaded.ran left right

theorem lowers_ld (pc : Word) (x : Reg) (kk : Byte) (f : Frame E) :
    Lowers H (((Printed.start.regptr pc x).print (.store (.lit (.i8 kk)) (.r pc x))).next pc) f
      (f.machine.mapVM fun vm => (vm.setReg x kk).setPc (pc + 2)) := by
  obtain ⟨g, loaded⟩ := (Loaded.start (H := H) pc f).regptr x
  have pointer := loaded.pointers x ((regptr_ptrMask _ pc x x).mpr (.inl rfl))
  have stored : (Instr.store (.lit (.i8 kk)) (.r pc x)).run H g =
      some (g.setMachine (g.machine.mapVM (VM.setReg · x kk))) := by
    simp only [Instr.run, Frame.eval, pointer]
  rw [← loaded.machine]
  exact lowers_next pc (runBody_print loaded.ran stored)

theorem lowers_add (pc : Word) (x : Reg) (kk : Byte) (f : Frame E) :
    Lowers H (((((Printed.start.loadreg pc x).print
        (.add (.a pc) (.name (.v pc x)) (.lit (.i8 kk)))).regptr pc x).print
        (.store (.name (.a pc)) (.r pc x))).next pc) f
      (f.machine.mapVM fun vm => (vm.setReg x (vm.regs x + kk)).setPc (pc + 2)) := by
  obtain ⟨g, loaded⟩ := (Loaded.start (H := H) pc f).loadreg x
  have pointer := loaded.pointers x ((loadreg_ptrMask _ pc x x).mpr (.inl rfl))
  have value := loaded.values x ((loadreg_loadMask _ pc x x).mpr (.inl rfl))
  rw [← loaded.machine] at value ⊢
  have added : (Instr.add (.a pc) (.name (.v pc x)) (.lit (.i8 kk))).run H g =
      some (g.set (.a pc) (.i8 (g.machine.vm.regs x + kk))) := by
    simp only [Instr.run, Frame.eval, value, Option.bind_eq_bind, Option.bind_some, addValues]
  -- The pointer is still there, so `regptr` prints nothing the second time.
  have again : (((Printed.start.loadreg pc x).print
      (.add (.a pc) (.name (.v pc x)) (.lit (.i8 kk)))).regptr pc x) =
      (Printed.start.loadreg pc x).print (.add (.a pc) (.name (.v pc x)) (.lit (.i8 kk))) :=
    regptr_known pc ((loadreg_ptrMask .start pc x x).mpr (.inl rfl))
  have kept : (g.set (.a pc) (.i8 (g.machine.vm.regs x + kk))).locals (.r pc x) =
      some (.ptr x) := (Frame.set_other (by simp) _ _).trans pointer
  have stored : (Instr.store (.name (.a pc)) (.r pc x)).run H
      (g.set (.a pc) (.i8 (g.machine.vm.regs x + kk))) =
      some ((g.set (.a pc) (.i8 (g.machine.vm.regs x + kk))).setMachine
        (g.machine.mapVM (VM.setReg · x (g.machine.vm.regs x + kk)))) := by
    simp only [Instr.run, Frame.eval, Frame.set_same, kept]
    rfl
  rw [again]
  exact lowers_next pc (runBody_print (runBody_print loaded.ran added) stored)

theorem lowers_jpV0 (pc nnn : Word) (f : Frame E) :
    Lowers H (((((Printed.start.loadreg pc 0#4).print (.zext (.z pc) (.v pc 0#4))).print
        (.add (.j pc) (.lit (.i16 nnn)) (.name (.z pc)))).print
        (.storePc (.name (.j pc)))).br .dispatch) f
      (f.machine.mapVM fun vm => vm.setPc (nnn + (vm.regs 0#4).setWidth 16)) := by
  obtain ⟨g, loaded⟩ := (Loaded.start (H := H) pc f).loadreg 0#4
  have value := loaded.values 0#4 ((loadreg_loadMask _ pc 0#4 0#4).mpr (.inl rfl))
  rw [← loaded.machine] at value ⊢
  have widened : (Instr.zext (.z pc) (.v pc 0#4)).run H g =
      some (g.set (.z pc) (.i16 ((g.machine.vm.regs 0#4).setWidth 16))) := by
    simp only [Instr.run, value]
  have added : (Instr.add (.j pc) (.lit (.i16 nnn)) (.name (.z pc))).run H
      (g.set (.z pc) (.i16 ((g.machine.vm.regs 0#4).setWidth 16))) =
      some ((g.set (.z pc) (.i16 ((g.machine.vm.regs 0#4).setWidth 16))).set (.j pc)
        (.i16 (nnn + (g.machine.vm.regs 0#4).setWidth 16))) := by
    simp only [Instr.run, Frame.eval, Frame.set_same, Option.bind_eq_bind, Option.bind_some,
      addValues]
  have stored : (Instr.storePc (.name (.j pc))).run H
      ((g.set (.z pc) (.i16 ((g.machine.vm.regs 0#4).setWidth 16))).set (.j pc)
        (.i16 (nnn + (g.machine.vm.regs 0#4).setWidth 16))) =
      some (((g.set (.z pc) (.i16 ((g.machine.vm.regs 0#4).setWidth 16))).set (.j pc)
        (.i16 (nnn + (g.machine.vm.regs 0#4).setWidth 16))).setMachine
        (g.machine.mapVM (VM.setPc · (nnn + (g.machine.vm.regs 0#4).setWidth 16)))) := by
    simp only [Instr.run, Frame.eval, Frame.set_same]
    rfl
  exact lowers_br (runBody_print (runBody_print (runBody_print loaded.ran widened) added) stored)

/-! ## The helpers against the opcode functions -/

theorem shl_carry (a : Byte) : (a >>> 7) &&& 1#8 = flag (a &&& 0x80#8 != 0#8) := by
  revert a
  decide

theorem bcdCase_eq (x : Reg) : bcdCase x = bcdStores x := by
  funext vm
  have tens (v : Byte) : v / 10#8 % 10#8 = v % 100#8 / 10#8 := by
    apply BitVec.eq_of_toNat_eq
    simp only [BitVec.toNat_umod, BitVec.toNat_udiv, BitVec.toNat_ofNat, Nat.reducePow,
      Nat.reduceMod]
    omega
  have ones (v : Byte) : v % 10#8 = v % 100#8 % 10#8 := by
    apply BitVec.eq_of_toNat_eq
    simp only [BitVec.toNat_umod, BitVec.toNat_ofNat, Nat.reducePow, Nat.reduceMod]
    omega
  simp only [bcdCase, bcdStores, tens, ← ones]

theorem aluCase_eq {n : Reg} {o : AluOp} (decoded : decodeAlu n.toNat = some o) (x y : Reg)
    (vm : VM) : aluCase x y n.toNat vm = o.apply x y vm := by
  unfold decodeAlu at decoded
  split at decoded <;> cases decoded <;> simp only [aluCase, AluOp.apply, *]
  rw [shl_carry]

end

section
variable {tape : Tape} {undefinedShift : Byte → BitVec 32}

/-- The machine the interpreter's state stands for. -/
def Machine.ofState (retired : BitVec 32) (s : State Cursor) : Machine Cursor :=
  ⟨s.vm, retired, s.env⟩

theorem ofState_skip (retired : BitVec 32) (c : Bool) (s : State Cursor) :
    Machine.ofState retired (advance (if c then advance s else s)) = (Machine.ofState retired s).mapVM
      (VM.setPc · (if c then s.vm.programCounter + 4 else s.vm.programCounter + 2)) := by
  cases c with
  | false => rfl
  | true =>
    have twice : s.vm.programCounter + 2 + 2 = s.vm.programCounter + 4 := by
      rw [BitVec.add_assoc]
      rfl
    simp only [if_true, advance, VM.setPc, twice]
    rfl

theorem immediate4_toNat (op : Word) : (immediate4 op).toNat = opLow4 op := by
  simp only [immediate4, opLow4, BitVec.toNat_setWidth, BitVec.toNat_and, BitVec.toNat_ofNat,
    Nat.reducePow, Nat.reduceMod]
  exact (Nat.and_two_pow_sub_one_eq_mod op.toNat 4).symm

theorem immediate8_toNat (op : Word) : (immediate8 op).toNat = opLow8 op := by
  simp only [immediate8, opLow8, BitVec.toNat_setWidth, BitVec.toNat_and, BitVec.toNat_ofNat,
    Nat.reducePow, Nat.reduceMod]
  exact (Nat.and_two_pow_sub_one_eq_mod op.toNat 8).symm

theorem lowers_return {op : Word} (nonzero : op ≠ 0#16) {s s' : State Cursor}
    (executed : Insn.ret.exec (tapePlatform tape undefinedShift) op s = (0#32, s'))
    (retired : BitVec 32) (locals : Name → Option Value) :
    Lowers (tapeHost tape undefinedShift) ((Printed.start.print (.call .return)).br .dispatch)
      ⟨.ofState retired s, locals⟩ (.ofState retired s') := by
  simp only [Insn.exec, retern] at executed
  split at executed
  · rename_i pending
    cases executed
    have pending' : ((Machine.ofState retired s).vm.stackPointer != 0) = true :=
      bne_iff_ne.mpr (Int.ne_of_gt pending)
    have returned : chip8AotReturn (Machine.ofState retired s) = .ofState retired
        ⟨{ s.vm with
          stackPointer := s.vm.stackPointer - 1
          programCounter := s.vm.stack (s.vm.stackPointer - 1).toNat }, s.env⟩ := by
      rw [chip8AotReturn, if_pos pending']
      rfl
    exact returned ▸ lowers_call .return _
  · exact absurd (congrArg Prod.fst executed) (errorCode_ne_zero nonzero)

theorem lowers_subroutine {op : Word} (nonzero : op ≠ 0#16) {nnn : Addr} {s s' : State Cursor}
    (executed : (Insn.call nnn).exec (tapePlatform tape undefinedShift) op s = (0#32, s'))
    (retired : BitVec 32) (locals : Name → Option Value) :
    Lowers (tapeHost tape undefinedShift)
      ((Printed.start.print (.call (.call (nnn.setWidth 16) (s.vm.programCounter + 2)))).br
        .dispatch)
      ⟨.ofState retired s, locals⟩ (.ofState retired s') := by
  simp only [Insn.exec] at executed
  split at executed
  · rename_i room
    cases executed
    have called : chip8AotCall (nnn.setWidth 16) (s.vm.programCounter + 2)
        (Machine.ofState retired s) = .ofState retired ⟨{ s.vm with
          stack := Function.update s.vm.stack s.vm.stackPointer.toNat (s.vm.programCounter + 2)
          stackPointer := s.vm.stackPointer + 1
          programCounter := nnn.setWidth 16 }, s.env⟩ := if_pos room
    exact called ▸ lowers_call (.call (nnn.setWidth 16) (s.vm.programCounter + 2)) _
  · exact absurd (congrArg Prod.fst executed) (errorCode_ne_zero nonzero)

theorem lowers_key {op : Word} {x : Reg} {up : Bool} {s s' : State Cursor}
    (executed : (Insn.skipKey x up).exec (tapePlatform tape undefinedShift) op s = (0#32, s'))
    (retired : BitVec 32) (locals : Name → Option Value) :
    Lowers (tapeHost tape undefinedShift) ((Printed.start.print (.call (.key x up))).br .dispatch)
      ⟨.ofState retired s, locals⟩ (.ofState retired s') := by
  have skipped : chip8AotKey (tapeHost tape undefinedShift) x up (.ofState retired s) =
      .ofState retired s' := by
    simp only [Insn.exec] at executed
    unfold chip8AotKey
    split at executed
    · rename_i pressed
      cases executed
      dsimp only
      rw [if_pos (by exact pressed)]
      rfl
    · rename_i pressed
      cases executed
      dsimp only
      rw [if_neg (by exact pressed)]
      rfl
  exact skipped ▸ lowers_call _ _

theorem f_eq {op : Word} {k : Nat} {x : Reg} {i : Insn} {retired : BitVec 32}
    {s s' : State Cursor} (decoded : decodeF k x = some i) (noWait : ∀ x, i ≠ .ldKey x)
    (executed : i.exec (tapePlatform tape undefinedShift) op s = (0#32, s')) :
    (chip8AotF (tapeHost tape undefinedShift) x k (.ofState retired s)).mapVM
      (VM.setPc · (s.vm.programCounter + 2)) = .ofState retired s' := by
  unfold decodeF at decoded
  split at decoded <;> cases decoded
  case h_2 => exact absurd rfl (noWait x)
  all_goals cases executed
  case h_7 =>
    simp only [chip8AotF, Machine.ofState, Machine.mapVM, advance, bcdCase_eq]
    rfl
  case h_8 =>
    simp only [chip8AotF, Machine.ofState, Machine.mapVM, advance, saveLoop_programCounter]
    rfl
  case h_9 =>
    simp only [chip8AotF, Machine.ofState, Machine.mapVM, advance, restoreLoop_programCounter]
    rfl
  all_goals rfl

theorem lowered_executes {op : Word} {i : Insn} {s s' : State Cursor} {retired : BitVec 32}
    (decoded : decode op = some i) (noWait : ∀ x, i ≠ .ldKey x)
    (executed : i.exec (tapePlatform tape undefinedShift) op s = (0#32, s'))
    (locals : Name → Option Value) :
    Lowers (tapeHost tape undefinedShift) (lowered s.vm.programCounter op)
      ⟨.ofState retired s, locals⟩ (.ofState retired s') := by
  unfold lowered
  unfold decode decodeF at decoded
  -- Along the tests of `decode`: `lowered` makes the same ones in the same order.
  split at decoded
  · rename_i cls
    cases decoded
    cases executed
    rw [if_pos cls]
    exact lowers_callNext _ .clear _
  rename_i notCls
  rw [if_neg notCls]
  split at decoded
  · rename_i ret
    cases decoded
    rw [if_pos ret]
    have nonzero : op ≠ 0#16 := by
      rintro rfl
      cases ret
    exact lowers_return nonzero executed retired locals
  rename_i notRet
  rw [if_neg notRet]
  split at decoded <;> rename_i cls <;> simp only [cls]
  case h_1 | h_2 =>
    cases decoded
    cases executed
    exact lowers_jp _ _
  case h_3 =>
    cases decoded
    have nonzero : op ≠ 0#16 := by
      rintro rfl
      cases cls
    exact lowers_subroutine nonzero executed retired locals
  case h_4 =>
    cases decoded
    cases executed
    rw [ofState_skip]
    exact lowers_skipImmediate _ (opX op) (immediate8 op) true _
  case h_5 =>
    cases decoded
    cases executed
    rw [ofState_skip]
    exact lowers_skipImmediate _ (opX op) (immediate8 op) false _
  case h_6 =>
    cases decoded
    cases executed
    rw [ofState_skip]
    exact lowers_skipRegister _ (opX op) (opY op) true _
  case h_7 =>
    cases decoded
    cases executed
    exact lowers_ld _ (opX op) (immediate8 op) _
  case h_8 =>
    cases decoded
    cases executed
    exact lowers_add _ (opX op) (immediate8 op) _
  case h_9 =>
    -- The emitted call passes the digit on, and `chip8_aot_alu` selects by it as `decode` does.
    obtain ⟨o, selected, rfl⟩ := Option.map_eq_some_iff.mp decoded
    cases executed
    rw [← immediate4_toNat] at selected
    have computed : ((Callee.alu (opX op) (opY op) (immediate4 op)).run
        (tapeHost tape undefinedShift) (.ofState retired s)).mapVM
          (VM.setPc · (s.vm.programCounter + 2)) =
        .ofState retired (advance ⟨o.apply (opX op) (opY op) s.vm, s.env⟩) := by
      simp only [Callee.run, chip8AotAlu, Machine.ofState, Machine.mapVM, advance,
        aluCase_eq selected, apply_programCounter]
    exact computed ▸ lowers_callNext _ _ _
  case h_10 =>
    cases decoded
    cases executed
    rw [ofState_skip]
    exact lowers_skipRegister _ (opX op) (opY op) false _
  case h_11 =>
    cases decoded
    cases executed
    exact lowers_ldI _ (target op) _
  case h_12 =>
    cases decoded
    cases executed
    exact lowers_jpV0 _ (target op) _
  case h_13 =>
    cases decoded
    cases executed
    exact lowers_callNext _ (.random (opX op) (immediate8 op)) _
  case h_14 =>
    cases decoded
    cases executed
    exact lowers_callNext _ (.draw (opX op) (opY op) (immediate4 op)) _
  case h_15 =>
    rw [← immediate8_toNat] at decoded
    split at decoded <;> rename_i low <;> cases decoded
    · rw [show immediate8 op = 0x9e#8 from BitVec.eq_of_toNat_eq low]
      exact lowers_key executed retired locals
    · rw [show immediate8 op = 0xa1#8 from BitVec.eq_of_toNat_eq low]
      exact lowers_key executed retired locals
  case h_16 =>
    rw [← immediate8_toNat] at decoded
    exact f_eq decoded noWait executed ▸ lowers_callNext _ (.f (opX op) (immediate8 op)) _
  case h_17 =>
    cases decoded

end

/-! ## The dispatcher -/

theorem find_block {addresses : List Word} {pc : Word} (word : Word → Word) (rest : Program)
    (known : pc ∈ addresses) {label : Label} {b : BasicBlock}
    (own : (block pc (word pc)).find? (fun b => b.label == label) = some b)
    (others : ∀ a ≠ pc, (block a (word a)).find? (fun b => b.label == label) = none) :
    ((addresses.flatMap fun a => block a (word a)) ++ rest).find? (fun b => b.label == label) =
      some b := by
  induction addresses with
  | nil => cases known
  | cons a as ih =>
    rw [List.flatMap_cons, List.append_assoc, List.find?_append]
    by_cases same : a = pc
    · subst same
      rw [own, Option.some_or]
    · rw [others a same, Option.none_or]
      exact ih ((List.mem_cons.mp known).resolve_left (Ne.symm same))

theorem find_pc {addresses : List Word} {pc : Word} (word : Word → Word) (rest : Program)
    (known : pc ∈ addresses) :
    ((addresses.flatMap fun a => block a (word a)) ++ rest).find? (fun b => b.label == .pc pc) =
      some ⟨.pc pc, [.retire (.stop pc)], .brIf (.stop pc) .exit (.op pc)⟩ := by
  refine find_block word rest known ?_ fun a other => ?_
  · simp [block]
  · simp [block, other]

theorem find_op {addresses : List Word} {pc : Word} (word : Word → Word) (rest : Program)
    (known : pc ∈ addresses) :
    ((addresses.flatMap fun a => block a (word a)) ++ rest).find? (fun b => b.label == .op pc) =
      some ⟨.op pc, (lowered pc (word pc)).1, (lowered pc (word pc)).2⟩ := by
  refine find_block word rest known ?_ fun a other => ?_
  · simp [block]
  · simp [block, other]

theorem lookup_addresses (addresses : List Word) (pc : Word) :
    (addresses.map fun a => (a, Label.pc a)).lookup pc =
      if pc ∈ addresses then some (.pc pc) else none := by
  induction addresses with
  | nil => rfl
  | cons a as ih =>
    rw [List.map_cons, List.lookup_cons]
    by_cases same : pc = a
    · subst same
      simp
    · rw [beq_false_of_ne same, ih]
      simp [same]

section
variable {E : Type} {H : Host E} {rom : List Byte}

theorem step_switch (f : Frame E) :
    (chip8AotRun rom).step H ⟨.dispatch, f⟩ =
      some ⟨if f.machine.vm.programCounter ∈ romAddresses rom.length then
        .pc f.machine.vm.programCounter else .exit,
        f.set .pc (.i16 f.machine.vm.programCounter)⟩ := by
  have found : (chip8AotRun rom).find? (fun b => b.label == .dispatch) =
      some ⟨.dispatch, [.loadPc .pc],
        .switch .pc .exit ((romAddresses rom.length).map fun pc => (pc, .pc pc))⟩ := rfl
  simp only [Program.step, found, Option.bind_eq_bind, Option.bind_some, runBody, Instr.run,
    Terminator.next, Frame.set_same, lookup_addresses]
  split <;> rfl

theorem step_dispatch {f : Frame E}
    (known : f.machine.vm.programCounter ∈ romAddresses rom.length) :
    (chip8AotRun rom).step H ⟨.dispatch, f⟩ =
      some ⟨.pc f.machine.vm.programCounter, f.set .pc (.i16 f.machine.vm.programCounter)⟩ := by
  rw [step_switch, if_pos known]

theorem step_safepoint {f : Frame E} {pc : Word} {m : Machine E}
    (known : pc ∈ romAddresses rom.length) (retired : chip8AotRetire H f.machine = (false, m)) :
    (chip8AotRun rom).step H ⟨.pc pc, f⟩ =
      some ⟨.op pc, (f.setMachine m).set (.stop pc) (.i1 false)⟩ := by
  have found : (chip8AotRun rom).find? (fun b => b.label == .pc pc) = _ :=
    find_pc (romWord rom) [⟨.exit, [], .ret⟩] known
  simp only [Program.step, found, Option.bind_eq_bind, Option.bind_some, runBody, Instr.run,
    Terminator.next, retired, Frame.set_same]
  rfl

theorem step_lowered {f : Frame E} {pc : Word} {m : Machine E}
    (known : pc ∈ romAddresses rom.length) (runs : Lowers H (lowered pc (romWord rom pc)) f m) :
    ∃ g, (chip8AotRun rom).step H ⟨.op pc, f⟩ = some ⟨.dispatch, g⟩ ∧ g.machine = m := by
  obtain ⟨g, ran, next, machine⟩ := runs
  have found : (chip8AotRun rom).find? (fun b => b.label == .op pc) = _ :=
    find_op (romWord rom) [⟨.exit, [], .ret⟩] known
  refine ⟨g, ?_, machine⟩
  simp only [Program.step, found, Option.bind_eq_bind, Option.bind_some, ran, next]

end

section
variable {tape : Tape} {undefinedShift : Byte → BitVec 32} {rom : List Byte}

theorem retire_tape (m : Machine Cursor) :
    chip8AotRetire (tapeHost tape undefinedShift) m =
      ((tape.readKeys m.env).1 &&& quitBit != 0#32,
        ⟨m.vm, m.retired + 1, (tape.readKeys m.env).2⟩) := by
  simp [chip8AotRetire, tapeHost]

theorem pass_executes {s s' : State Cursor} {retired : BitVec 32} {f : Frame Cursor}
    (here : f.machine = .ofState retired s)
    (stepped : mainStep (tapePlatform tape undefinedShift) s = some s')
    (known : s.vm.programCounter ∈ romAddresses rom.length)
    (intact : opcodeAt s.vm.memory s.vm.programCounter = romWord rom s.vm.programCounter)
    (noWait : ∀ x, decode (opcodeAt s.vm.memory s.vm.programCounter) ≠ some (.ldKey x)) :
    ∃ g, Run.after ((chip8AotRun rom).step (tapeHost tape undefinedShift)) 3 ⟨.dispatch, f⟩ =
        some ⟨.dispatch, g⟩ ∧ g.machine = .ofState (retired + 1) s' := by
  have pc : f.machine.vm.programCounter = s.vm.programCounter := by rw [here]; rfl
  obtain ⟨noQuit, block⟩ := (mainStep_eq_some _).mp stepped
  obtain ⟨i, decoded, executed⟩ := blockStep_decodes _ block
  have selected := @step_dispatch _ (tapeHost tape undefinedShift) rom f (pc ▸ known)
  rw [pc] at selected
  -- The safepoint reads the mask the interpreter's loop has tested.
  have masked : ((tape.readKeys s.env).1 &&& quitBit != 0#32) = false := by
    rw [bne_eq_false_iff_eq]
    exact noQuit
  have retires : chip8AotRetire (tapeHost tape undefinedShift) f.machine =
      (false, .ofState (retired + 1) { s with env := (tape.readKeys s.env).2 }) := by
    rw [here, retire_tape]
    exact Prod.ext masked rfl
  have passed := @step_safepoint _ (tapeHost tape undefinedShift) rom
    (f.set .pc (.i16 s.vm.programCounter)) _ _ known retires
  obtain ⟨g, last, machine⟩ := @step_lowered _ (tapeHost tape undefinedShift) rom _ _ _ known
    (intact ▸ lowered_executes decoded (fun x same => noWait x (same ▸ decoded)) executed _)
  refine ⟨g, ?_, machine⟩
  rw [Run.after_head, selected, Option.bind_some, Run.after_head, passed, Option.bind_some]
  exact last

end

/-! ## Immutable ROMs -/

/-- What the emitter assumes of every state the interpreter executes from. -/
structure Lowerable (rom : List Byte) (vm : VM) : Prop where
  even : vm.programCounter.toNat % 2 = 0
  inRom : InRom rom vm.programCounter.toNat
  noWait : ∀ x, decode (opcodeAt vm.memory vm.programCounter) ≠ some (.ldKey x)
  noStore : ∀ i, decode (opcodeAt vm.memory vm.programCounter) = some i →
    ∀ a ∈ i.written vm.addr, ¬ InRom rom a.toNat

theorem mem_romAddresses {rom : List Byte} {pc : Word} (even : pc.toNat % 2 = 0)
    (inside : InRom rom pc.toNat) : pc ∈ romAddresses rom.length := by
  obtain ⟨low, high⟩ := inside
  have base : entrypoint.toNat = 512 := rfl
  refine List.mem_map.mpr ⟨(pc.toNat - 512) / 2, List.mem_range.mpr (by omega), ?_⟩
  apply BitVec.eq_of_toNat_eq
  rw [BitVec.toNat_add, BitVec.toNat_ofNat, base]
  omega

theorem word_of_intact {rom : List Byte} {memory : Memory} (intact : Intact rom memory)
    (fits : rom.length ≤ 3584) (whole : rom.length % 2 = 0) {pc : Word}
    (even : pc.toNat % 2 = 0) (inside : InRom rom pc.toNat) :
    opcodeAt memory pc = romWord rom pc := by
  have first := mask_toNat fits inside
  have second := next_toNat fits inside
  obtain ⟨low, high⟩ := inside
  have base : entrypoint.toNat = 512 := rfl
  have there : InRom rom (pc + 1).toNat := by
    rw [second]
    exact ⟨by omega, by omega⟩
  rw [← mask_toNat fits there] at second
  have byte (a : Addr) (i : Nat) (same : a.toNat = i) (inside : InRom rom i) :
      memory a = rom.getD (i - entrypoint.toNat) 0#8 := by
    subst same
    rw [intact a inside, loadRom, if_neg (Nat.not_lt.mpr inside.1)]
  rw [opcodeAt, romWord, byte _ _ first ⟨low, high⟩,
    byte _ _ second ⟨by omega, by omega⟩, Nat.sub_add_comm low]

theorem intact_pass {E : Type} {P : Platform E} {rom : List Byte} {s s' : State E}
    (intact : Intact rom s.vm.memory) (lowerable : Lowerable rom s.vm)
    (stepped : mainStep P s = some s') : Intact rom s'.vm.memory := by
  obtain ⟨i, decoded, executed⟩ := blockStep_decodes _ ((mainStep_eq_some P).mp stepped).2
  exact @Intact.exec _ P rom { s with env := (P.allKeysDown s.env).2 } s' i _ _ intact
    (lowerable.noStore i decoded) executed

section
variable (tape : Tape) (undefinedShift : Byte → BitVec 32)

theorem passes_execute {rom : List Byte} (even : rom.length % 2 = 0) (fits : rom.length ≤ 3584)
    (locals : Name → Option Value) {n : Nat} {s : State Cursor}
    (run : Run.after (mainStep (tapePlatform tape undefinedShift)) n (interpreterStart rom) =
      some s)
    (stays : ∀ k < n, ∀ u,
      Run.after (mainStep (tapePlatform tape undefinedShift)) k (interpreterStart rom) = some u →
        Lowerable rom u.vm) :
    Intact rom s.vm.memory ∧ ∃ g,
      Run.after ((chip8AotRun rom).step (tapeHost tape undefinedShift)) (3 * n)
        ⟨.dispatch, ⟨.boot rom .start, locals⟩⟩ = some ⟨.dispatch, g⟩ ∧
      g.machine = .ofState (BitVec.ofNat 32 n) s := by
  induction n generalizing s with
  | zero =>
    cases run
    exact ⟨fun a _ => rfl, _, rfl, rfl⟩
  | succ n ih =>
    obtain ⟨u, earlier, stepped⟩ := Run.after_succ.mp run
    obtain ⟨intact, g, reached, machine⟩ := ih earlier fun k before =>
      stays k (Nat.lt_succ_of_lt before)
    have lowerable := stays n (Nat.lt_succ_self n) u earlier
    obtain ⟨g', further, machine'⟩ := pass_executes machine stepped
      (mem_romAddresses lowerable.even lowerable.inRom)
      (word_of_intact intact fits even lowerable.even lowerable.inRom) lowerable.noWait
    refine ⟨intact_pass intact lowerable stepped, g', Run.after_trans reached further, ?_⟩
    rw [machine', BitVec.ofNat_add]
    rfl

/-- After `n` lowered blocks, each a pass through three basic blocks, the generated
program has the machine the interpreter has after `n` instructions. -/
theorem aot_refines_interpreter {rom : List Byte} (even : rom.length % 2 = 0)
    (nonempty : 2 ≤ rom.length) (fits : rom.length ≤ 3584) {n : Nat} {s : State Cursor}
    (run : Run.after (mainStep (tapePlatform tape undefinedShift)) n (interpreterStart rom) =
      some s)
    (stays : ∀ k < n, ∀ u,
      Run.after (mainStep (tapePlatform tape undefinedShift)) k (interpreterStart rom) = some u →
        Lowerable rom u.vm) :
    ∃ prog c, main rom = some prog ∧
      Run.after (prog.step (tapeHost tape undefinedShift)) (1 + 3 * n)
        (.start (.boot rom .start)) = some c ∧
      c.label = .dispatch ∧ c.frame.machine.retired = BitVec.ofNat 32 n ∧
      c.frame.machine.vm = s.vm := by
  obtain ⟨-, g, reached, machine⟩ := passes_execute tape undefinedShift even fits
    (fun _ => none) run stays
  have accepted : main rom = some (chip8AotRun rom) := by
    have room : memorySize - entrypoint.toNat = 3584 := rfl
    rw [main, if_neg (by omega), if_neg (by omega)]
  have entered : Run.after ((chip8AotRun rom).step (tapeHost tape undefinedShift)) 1
      (.start (.boot rom .start)) = some ⟨.dispatch, ⟨.boot rom .start, fun _ => none⟩⟩ := rfl
  refine ⟨chip8AotRun rom, ⟨.dispatch, g⟩, accepted, Run.after_trans entered reached, rfl, ?_, ?_⟩
  · rw [machine]; rfl
  · rw [machine]; rfl

end

/-- `LD V0, 123; LD I, 0x300; LD B, V0; JP 0x206`: a store outside the ROM. -/
def storesDigits : List Byte := [0x60, 0x7b, 0xa3, 0x00, 0xf0, 0x33, 0x12, 0x06]

theorem aot_refines_interpreter_storesDigits :
    ∃ s prog c,
      Run.after (mainStep (tapePlatform quietTape fun _ => 0#32)) 4
        (interpreterStart storesDigits) = some s ∧
      main storesDigits = some prog ∧
      Run.after (prog.step (tapeHost quietTape fun _ => 0#32)) 13
        (.start (.boot storesDigits .start)) = some c ∧
      c.frame.machine.vm = s.vm ∧ s.vm.memory 0x301#12 = 2#8 := by
  have run : Run.after (mainStep (tapePlatform quietTape fun _ => 0#32)) 4
      (interpreterStart storesDigits) = some _ := rfl
  obtain ⟨prog, c, accepted, reached, -, -, same⟩ := aot_refines_interpreter quietTape
    (fun _ => 0#32) (by decide) (by decide) (by decide) run (by
      intro k small u reached
      obtain rfl | rfl | rfl | rfl : k = 0 ∨ k = 1 ∨ k = 2 ∨ k = 3 := by omega
      all_goals
        cases reached
        refine ⟨by decide, by decide, (fun x wait => nomatch wait), fun i decoded a => ?_⟩
        cases decoded
        revert a
        decide +kernel)
  exact ⟨_, prog, c, run, accepted, reached, same, rfl⟩

end ChipEight.Aot
