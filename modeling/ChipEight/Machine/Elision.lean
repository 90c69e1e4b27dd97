import ChipEight.Machine.Subscripts
import Mathlib.Tactic.IntervalCases

/-! Waiting a delay-timer poll loop out, and running it.

The recognised loop reads the timer, tests it and jumps back; only the jump services
the host. A run of the loop is compared with the loop of `idle_wait` through how often
the timers were counted down.
-/

set_option autoImplicit false

namespace ChipEight

/-! ## The recognised loop -/

theorem and_of_and {a b c m : Word} (fixed : a &&& m = b) (part : m &&& c = c) :
    a &&& c = b &&& c := by
  rw [← fixed, BitVec.and_assoc, part]

/-- What the three words of a recognised loop stand for. -/
structure IdleAt (memory : Memory) (pc : Word) (x : Reg) : Prop where
  poll : decode (opcodeAt memory pc) = some (.ldDelay x)
  test : decode (opcodeAt memory (pc + 2)) = some (.skip (.eqImm x 0#8))
  back : ∃ nnn : Addr, decode (opcodeAt memory (pc + 4)) = some (.jp nnn) ∧ nnn.setWidth 16 = pc

theorem decode_ldDelay {op : Word} (shape : op &&& 0xf0ff#16 = 0xf007#16) :
    decode op = some (.ldDelay (opX op)) := by
  have cls : opClass op = 15 := by
    unfold opClass
    rw [and_of_and shape (by decide)]
    rfl
  have low : opLow8 op = 7 := by
    unfold opLow8
    rw [and_of_and shape (by decide)]
    rfl
  obtain ⟨notCls, notRet⟩ := not_miscellaneous cls
  unfold decode
  rw [notCls, notRet, cls, low]
  rfl

theorem immediate8_and (op : Word) : immediate8 op = (op &&& 0xff#16).setWidth 8 := by
  apply BitVec.eq_of_getLsbD_eq
  intro i small
  interval_cases i <;> simp [immediate8]

theorem decode_test {op : Word} (shape : op &&& 0xf0ff#16 = 0x3000#16) :
    decode op = some (.skip (.eqImm (opX op) 0#8)) := by
  have cls : opClass op = 3 := by
    unfold opClass
    rw [and_of_and shape (by decide)]
    rfl
  have low : immediate8 op = 0#8 := by
    rw [immediate8_and, and_of_and shape (by decide)]
    rfl
  obtain ⟨notCls, notRet⟩ := not_miscellaneous cls
  unfold decode
  rw [notCls, notRet, cls, low]
  rfl

theorem target_and (op : Word) : target op = op &&& 0x0fff#16 := by
  apply BitVec.eq_of_getLsbD_eq
  intro i small
  interval_cases i <;> simp [target, immediate12]

theorem decode_back {op : Word} (shape : op &&& 0xf000#16 = 0x1000#16) :
    decode op = some (.jp (immediate12 op)) := by
  have cls : opClass op = 1 := by
    unfold opClass
    rw [shape]
    rfl
  obtain ⟨notCls, notRet⟩ := not_miscellaneous cls
  unfold decode
  rw [notCls, notRet, cls]
  rfl

theorem idleAt_of_recognised {memory : Memory} {pc : Word} {x : Reg}
    (loop : idleDelayLoop memory pc = some x) : IdleAt memory pc x := by
  unfold idleDelayLoop at loop
  dsimp only at loop
  split at loop
  · cases loop
  rename_i poll
  split at loop
  · cases loop
  rename_i test
  split at loop
  · cases loop
  rename_i back
  cases loop
  rw [not_not] at poll
  rw [not_or, not_not, not_not] at test back
  constructor
  · exact decode_ldDelay poll
  · rw [← test.2]
    exact decode_test test.1
  · exact ⟨_, decode_back back.1, (target_and _).trans back.2⟩

/-! ## A pass of the loop -/

section
variable (o : Outside) (undefinedShift : Byte → BitVec 32)

theorem block_poll {s : State Live} {x : Reg}
    (decoded : decode (opcodeAt s.vm.memory s.vm.programCounter) = some (.ldDelay x)) :
    blockStep (livePlatform o undefinedShift) s =
      some ⟨(s.vm.setReg x s.env.delayTimer).setPc (s.vm.programCounter + 2), s.env⟩ :=
  blockStep_of_exec _ decoded rfl

theorem block_expired {s : State Live} {x : Reg}
    (decoded : decode (opcodeAt s.vm.memory s.vm.programCounter) = some (.skip (.eqImm x 0#8)))
    (zero : s.vm.regs x = 0#8) :
    blockStep (livePlatform o undefinedShift) s =
      some ⟨s.vm.setPc (s.vm.programCounter + 4), s.env⟩ := by
  apply blockStep_of_exec _ decoded
  simp only [Insn.exec, Interpreter.skipIf, SkipCond.holds, beq_iff_eq, if_pos zero,
    Interpreter.step, Interpreter.advance, VM.setPc, BitVec.add_assoc]
  rfl

theorem block_waits {s : State Live} {x : Reg}
    (decoded : decode (opcodeAt s.vm.memory s.vm.programCounter) = some (.skip (.eqImm x 0#8)))
    (waits : s.vm.regs x ≠ 0#8) :
    blockStep (livePlatform o undefinedShift) s =
      some ⟨s.vm.setPc (s.vm.programCounter + 2), s.env⟩ := by
  apply blockStep_of_exec _ decoded
  simp only [Insn.exec, Interpreter.skipIf, SkipCond.holds, beq_iff_eq, if_neg waits]
  rfl

theorem block_back {s : State Live} {nnn : Addr}
    (decoded : decode (opcodeAt s.vm.memory s.vm.programCounter) = some (.jp nnn)) :
    blockStep (livePlatform o undefinedShift) s =
      some ⟨s.vm.setPc (nnn.setWidth 16), s.env.interrupt o⟩ :=
  blockStep_of_exec _ decoded rfl

end

/-! ## Counting down -/

/-- The timers of `e'` are those of `e` after some ticks, no more than the delay timer had. -/
def Counted (e e' : Live) : Prop :=
  ∃ j ≤ e.delayTimer.toNat, e'.delayTimer.toNat = e.delayTimer.toNat - j ∧
    e'.soundTimer.toNat = e.soundTimer.toNat - j

theorem Counted.refl (e : Live) : Counted e e := ⟨0, Nat.zero_le _, rfl, rfl⟩

theorem countDown_toNat (timer : Byte) : (Live.countDown timer).toNat = timer.toNat - 1 := by
  unfold Live.countDown
  split
  · rename_i positive
    have := BitVec.lt_def.mp positive
    simp at this
    rw [BitVec.toNat_sub_of_le]
    · rfl
    · exact BitVec.le_def.mpr this
  · rename_i zero
    have := mt BitVec.lt_def.mpr zero
    simp at this
    rw [this]
    rfl

theorem Counted.interrupt {e e' : Live} (counted : Counted e e') (waits : e'.delayTimer ≠ 0#8)
    (o : Outside) : Counted e (e'.interrupt o) := by
  obtain ⟨j, within, delay, sound⟩ := counted
  have left : 0 < e'.delayTimer.toNat := by
    apply Nat.pos_of_ne_zero
    intro zero
    exact waits (BitVec.eq_of_toNat_eq zero)
  unfold Live.interrupt Live.countTimers
  split
  · refine ⟨j + 1, by omega, ?_, ?_⟩
    · simp only [Live.recordKeys, countDown_toNat]
      omega
    · simp only [Live.recordKeys, countDown_toNat]
      omega
  · exact ⟨j, within, delay, sound⟩

theorem Counted.expired {e e' : Live} (counted : Counted e e') (zero : e'.delayTimer = 0#8) :
    e'.soundTimer.toNat = e.soundTimer.toNat - e.delayTimer.toNat := by
  obtain ⟨j, within, delay, sound⟩ := counted
  rw [zero] at delay
  simp at delay
  omega

/-! ## The spinning loop -/

/-- The words of the loop a run from `s` is in. -/
def InLoop (pc : Word) (t : State Live) : Prop :=
  t.vm.programCounter = pc ∨ t.vm.programCounter = pc + 2 ∨ t.vm.programCounter = pc + 4

/-- A state of the loop that `s` begins: only the polled register and the timers moved,
and behind the poll the register shows the timer. -/
structure Spins (s : State Live) (x : Reg) (t : State Live) : Prop where
  vm : ∃ v, t.vm = (s.vm.setReg x v).setPc t.vm.programCounter
  timers : Counted s.env t.env
  place : t.vm.programCounter = s.vm.programCounter ∨
    t.vm.programCounter = s.vm.programCounter + 2 ∧ t.vm.regs x = t.env.delayTimer ∨
    t.vm.programCounter = s.vm.programCounter + 4 ∧ t.vm.regs x = t.env.delayTimer ∧
      t.env.delayTimer ≠ 0#8

/-- The state behind the loop. -/
structure Ended (s : State Live) (x : Reg) (t : State Live) : Prop where
  vm : t.vm = leaveIdle x s.vm
  delay : t.env.delayTimer = 0#8
  sound : t.env.soundTimer.toNat = s.env.soundTimer.toNat - s.env.delayTimer.toNat

theorem pc_apart (pc : Word) : pc ≠ pc + 2 ∧ pc ≠ pc + 4 ∧ pc + 2 ≠ pc + 4 ∧ pc + 6 ≠ pc ∧
    pc + 6 ≠ pc + 2 ∧ pc + 6 ≠ pc + 4 := by
  bv_omega

theorem setReg_self (vm : VM) (x : Reg) : vm.setReg x (vm.regs x) = vm := by
  unfold VM.setReg
  rw [Function.update_eq_self]

theorem regs_setReg (vm : VM) (x : Reg) (v : Byte) : (vm.setReg x v).regs x = v :=
  Function.update_self _ _ _

section
variable (o : Outside) (undefinedShift : Byte → BitVec 32)

theorem Spins.start (s : State Live) (x : Reg) : Spins s x s where
  vm := ⟨s.vm.regs x, by rw [setReg_self]; rfl⟩
  timers := .refl s.env
  place := .inl rfl

theorem Spins.step {s t t' : State Live} {x : Reg}
    (loop : IdleAt s.vm.memory s.vm.programCounter x) (spins : Spins s x t)
    (stepped : blockStep (livePlatform o undefinedShift) t = some t') :
    Spins s x t' ∨ Ended s x t' := by
  obtain ⟨⟨v, vm⟩, timers, place⟩ := spins
  have memory : t.vm.memory = s.vm.memory := by
    rw [vm]
    rfl
  -- At the poll, at the test with the timer read, or at the jump back with time left.
  obtain here | ⟨here, shows⟩ | ⟨here, shows, waits⟩ := place
  · have decoded := loop.poll
    rw [← memory, ← here] at decoded
    rw [block_poll o undefinedShift decoded] at stepped
    cases stepped
    left
    constructor
    · refine ⟨t.env.delayTimer, ?_⟩
      have again := setReg_setReg s.vm x v t.env.delayTimer
      rw [vm]
      exact congrArg (fun vm => vm.setPc (t.vm.programCounter + 2)) again
    · exact timers
    · right
      left
      constructor
      · exact congrArg (· + 2#16) here
      · exact Function.update_self _ _ _
  · have decoded := loop.test
    rw [← memory, ← here] at decoded
    by_cases zero : t.vm.regs x = 0#8
    · rw [block_expired o undefinedShift decoded zero] at stepped
      cases stepped
      right
      have expired : t.env.delayTimer = 0#8 := shows.symm.trans zero
      constructor
      · have final : v = 0#8 := by
          rw [← zero, vm]
          exact (Function.update_self x v s.vm.regs).symm
        rw [vm, here, final]
        unfold leaveIdle
        simp only [VM.setPc, BitVec.add_assoc]
        rfl
      · exact expired
      · exact timers.expired expired
    · rw [block_waits o undefinedShift decoded zero] at stepped
      cases stepped
      left
      constructor
      · refine ⟨v, ?_⟩
        rw [vm]
        rfl
      · exact timers
      · right
        right
        refine ⟨?_, shows, fun expired => zero (shows.trans expired)⟩
        simp only [VM.setPc, here, BitVec.add_assoc]
        rfl
  · obtain ⟨nnn, decoded, back⟩ := loop.back
    rw [← memory, ← here] at decoded
    rw [block_back o undefinedShift decoded] at stepped
    cases stepped
    left
    constructor
    · refine ⟨v, ?_⟩
      rw [vm]
      rfl
    · exact timers.interrupt waits o
    · exact .inl back

/-- The run is in the loop until its last step. -/
structure LeavesLoop (n : Nat) (s t : State Live) : Prop where
  run : Run.after (blockStep (livePlatform o undefinedShift)) n s = some t
  inside : ∀ k < n, ∀ u, Run.after (blockStep (livePlatform o undefinedShift)) k s = some u →
    InLoop s.vm.programCounter u
  outside : ¬ InLoop s.vm.programCounter t

theorem Ended.outside {s t : State Live} {x : Reg} (ended : Ended s x t) :
    ¬ InLoop s.vm.programCounter t := by
  have here : t.vm.programCounter = s.vm.programCounter + 6 := by
    rw [ended.vm]
    rfl
  obtain ⟨-, -, -, first, second, third⟩ := pc_apart s.vm.programCounter
  unfold InLoop
  rw [here]
  rintro (same | same | same)
  · exact first same
  · exact second same
  · exact third same

theorem Spins.inLoop {s t : State Live} {x : Reg} (spins : Spins s x t) :
    InLoop s.vm.programCounter t := by
  obtain here | ⟨here, -⟩ | ⟨here, -⟩ := spins.place
  · exact .inl here
  · exact .inr (.inl here)
  · exact .inr (.inr here)

theorem leavesLoop_ended {s t : State Live} {x : Reg} {n : Nat}
    (loop : IdleAt s.vm.memory s.vm.programCounter x)
    (leaves : LeavesLoop o undefinedShift n s t) : Ended s x t := by
  obtain ⟨run, inside, outside⟩ := leaves
  -- While the run is in the loop it spins, and it leaves by the one way out.
  have spins : ∀ k ≤ n, ∀ u, Run.after (blockStep (livePlatform o undefinedShift)) k s = some u →
      Spins s x u ∨ Ended s x u := by
    intro k
    induction k with
    | zero =>
      intro _ u reached
      cases reached
      exact .inl (.start s x)
    | succ k ih =>
      intro within u reached
      obtain ⟨w, earlier, last⟩ := Run.after_succ.mp reached
      obtain spinning | ended := ih (Nat.le_of_succ_le within) w earlier
      · exact spinning.step o undefinedShift loop last
      · exact absurd (inside k within w earlier) ended.outside
  obtain spinning | ended := spins n (Nat.le_refl n) t run
  · exact absurd spinning.inLoop outside
  · exact ended

end

/-! ## The quit key -/

theorem quitting_iff (e : Live) :
    e.quitting = true ↔ ∃ i < inputTicks, (e.keysDown i).getLsbD 31 = true := by
  have folded (is : List Nat) (all : BitVec 32) :
      (is.foldl (fun all i => all ||| e.keysDown i) all).getLsbD 31 = true ↔
        all.getLsbD 31 = true ∨ ∃ i ∈ is, (e.keysDown i).getLsbD 31 = true := by
    induction is generalizing all with
    | nil => simp
    | cons i is ih =>
      rw [List.foldl_cons, ih, BitVec.getLsbD_or, Bool.or_eq_true, List.exists_mem_cons_iff, or_assoc]
  have read : e.quitting = true ↔ e.allKeysDown.getLsbD 31 = true := by
    unfold Live.quitting
    rw [bne_iff_ne, ne_eq, and_quitBit, Bool.not_eq_false]
  rw [read, Live.allKeysDown, folded]
  simp

theorem interrupt_keysDown (o : Outside) (e : Live) :
    (e.interrupt o).keysDown =
      Function.update e.keysDown e.interruptCount (o.keys e.serviced) := by
  unfold Live.interrupt Live.countTimers
  split <;> rfl

theorem quitting_interrupt {o : Outside} {e : Live} (calm : e.quitting = false)
    (unread : (o.keys e.serviced).getLsbD 31 = false) : (e.interrupt o).quitting = false := by
  rw [Bool.eq_false_iff, ne_eq, quitting_iff] at calm ⊢
  rintro ⟨i, small, pressed⟩
  rw [interrupt_keysDown] at pressed
  by_cases here : i = e.interruptCount
  · rw [here, Function.update_self, unread] at pressed
    cases pressed
  · rw [Function.update_of_ne here] at pressed
    exact calm ⟨i, small, pressed⟩

/-! ## Waiting -/

section
variable (o : Outside) (undefinedShift : Byte → BitVec 32)

/-- No answer of the host has the quit key in it. -/
def Outside.Calm : Prop := ∀ k, (o.keys k).getLsbD 31 = false

theorem idleLoop_some {e e' : Live} (looped : idleLoop o e = some e') :
    e.delayTimer ≠ 0#8 ∧ e.quitting = false ∧ e' = e.interrupt o := by
  unfold idleLoop at looped
  split at looped
  · cases looped
  · rename_i goesOn
    cases looped
    simp only [Bool.or_eq_true, beq_iff_eq, not_or, Bool.not_eq_true] at goesOn
    exact ⟨goesOn.1, goesOn.2, rfl⟩

theorem idleLoop_counted {k : Nat} {e e' : Live} (looped : Run.after (idleLoop o) k e = some e') :
    Counted e e' := by
  apply Run.invariant _ (Counted.refl e) looped
  intro u v counted last
  obtain ⟨waits, -, rfl⟩ := idleLoop_some o last
  exact counted.interrupt waits o

theorem idleLoop_expired {k : Nat} {e e' : Live} (calm : e.quitting = false) (unread : o.Calm)
    (looped : Run.after (idleLoop o) k e = some e') (returns : idleLoop o e' = none) :
    e'.delayTimer = 0#8 := by
  have keeps (u v : Live) (calm : u.quitting = false) (last : idleLoop o u = some v) :
      v.quitting = false := by
    obtain ⟨-, -, rfl⟩ := idleLoop_some o last
    exact quitting_interrupt calm (unread _)
  have quiet : e'.quitting = false := Run.invariant keeps calm looped
  unfold idleLoop at returns
  split at returns
  · rename_i ended
    rw [quiet, Bool.or_false] at ended
    exact beq_iff_eq.mp ended
  · cases returns

theorem head_leaves {s : State Live} {x : Reg}
    (loop : IdleAt s.vm.memory s.vm.programCounter x) (expired : s.env.delayTimer = 0#8) :
    ∃ u, blockStep (livePlatform o undefinedShift) s = some u ∧ u.env = s.env ∧
      blockStep (livePlatform o undefinedShift) u = some ⟨leaveIdle x s.vm, s.env⟩ := by
  have polled := block_poll o undefinedShift loop.poll
  rw [expired] at polled
  have tested := @block_expired o undefinedShift
    ⟨(s.vm.setReg x 0#8).setPc (s.vm.programCounter + 2), s.env⟩ x loop.test
    (Function.update_self _ _ _)
  refine ⟨_, polled, rfl, ?_⟩
  rw [tested]
  unfold leaveIdle
  simp only [VM.setPc, BitVec.add_assoc]
  rfl

theorem head_waits {s : State Live} {x : Reg}
    (loop : IdleAt s.vm.memory s.vm.programCounter x) (waits : s.env.delayTimer ≠ 0#8) :
    ∃ u v, blockStep (livePlatform o undefinedShift) s = some u ∧ u.env = s.env ∧
      blockStep (livePlatform o undefinedShift) u = some v ∧ v.env = s.env ∧
      blockStep (livePlatform o undefinedShift) v =
        some ⟨s.vm.setReg x s.env.delayTimer, s.env.interrupt o⟩ := by
  have polled := block_poll o undefinedShift loop.poll
  have shown : (s.vm.setReg x s.env.delayTimer).regs x = s.env.delayTimer :=
    Function.update_self _ _ _
  have tested := @block_waits o undefinedShift
    ⟨(s.vm.setReg x s.env.delayTimer).setPc (s.vm.programCounter + 2), s.env⟩ x loop.test
    (fun zero => waits (shown.symm.trans zero))
  obtain ⟨nnn, decoded, back⟩ := loop.back
  have behind : s.vm.programCounter + 2 + 2 = s.vm.programCounter + 4 := by
    rw [BitVec.add_assoc]
    rfl
  have jumped := @block_back o undefinedShift
    ⟨(s.vm.setReg x s.env.delayTimer).setPc (s.vm.programCounter + 2 + 2), s.env⟩ nnn
    (by
      rw [behind]
      exact decoded)
  refine ⟨_, _, polled, rfl, tested, rfl, ?_⟩
  refine jumped.trans ?_
  rw [back]
  rfl

end

/-! ## The same run without the quit key -/

/-- The same answers with the quit key never pressed. -/
def Outside.calmed (o : Outside) : Outside := { o with keys := fun k => o.keys k &&& ~~~quitBit }

/-- The instructions that service the host. -/
def Insn.services : Insn → Bool
  | .jp _ => true
  | .call _ => true
  | .ret => true
  | .drw _ _ _ => true
  | _ => false

section
variable (o : Outside) (undefinedShift : Byte → BitVec 32)

theorem calmed_calm : o.calmed.Calm := by
  intro k
  have high : quitBit.getLsbD 31 = true := by decide
  simp only [Outside.calmed, BitVec.getLsbD_and, BitVec.getLsbD_not, high]
  simp

theorem calmed_keys {k : Nat} (unread : (o.keys k).getLsbD 31 = false) :
    o.calmed.keys k = o.keys k := by
  have none : o.keys k &&& quitBit = 0#32 := (and_quitBit _).mpr unread
  apply BitVec.eq_of_getLsbD_eq
  intro i small
  have bit := congrArg (fun v => v.getLsbD i) none
  simp only [BitVec.getLsbD_and, BitVec.getLsbD_zero] at bit
  simp only [Outside.calmed, BitVec.getLsbD_and, BitVec.getLsbD_not, small, decide_true,
    Bool.true_and]
  cases here : (o.keys k).getLsbD i with
  | false => rfl
  | true =>
    rw [here, Bool.true_and] at bit
    rw [bit]
    rfl

theorem interrupt_calmed {e : Live} (unread : (o.keys e.serviced).getLsbD 31 = false) :
    e.interrupt o.calmed = e.interrupt o := by
  have keys := calmed_keys o unread
  unfold Live.interrupt
  rw [keys]
  rfl

theorem exec_calmed (op : Word) (i : Insn) {s : State Live}
    (same : i.services = true → s.env.interrupt o.calmed = s.env.interrupt o) :
    i.exec (livePlatform o.calmed undefinedShift) op s =
      i.exec (livePlatform o undefinedShift) op s := by
  have serviced (yes : i.services = true) : (livePlatform o.calmed undefinedShift).interrupt s.env =
      (livePlatform o undefinedShift).interrupt s.env := same yes
  cases i with
  | jp nnn =>
    simp only [Insn.exec]
    rw [serviced rfl]
  | call nnn =>
    simp only [Insn.exec]
    rw [serviced rfl]
  | ret =>
    simp only [Insn.exec, Interpreter.retern]
    rw [serviced rfl]
  | drw x y n =>
    simp only [Insn.exec]
    rw [serviced rfl]
    rfl
  | _ => rfl

theorem services_keysDown (op : Word) {i : Insn} (services : i.services = true) (s : State Live) :
    (i.exec (livePlatform o undefinedShift) op s).2.env.keysDown =
      (s.env.interrupt o).keysDown := by
  cases i with
  | call nnn =>
    simp only [Insn.exec]
    split <;> rfl
  | ret =>
    simp only [Insn.exec, Interpreter.retern]
    split <;> rfl
  | jp nnn => rfl
  | drw x y n => rfl
  | _ => cases services

theorem quitting_of_read {e e' : Live} (ring : e.interruptCount < inputTicks)
    (pressed : (o.keys e.serviced).getLsbD 31 = true)
    (same : e'.keysDown = (e.interrupt o).keysDown) : e'.quitting = true := by
  apply (quitting_iff e').mpr
  refine ⟨e.interruptCount, ring, ?_⟩
  rw [same, interrupt_keysDown, Function.update_self]
  exact pressed

theorem block_calmed {s t : State Live} (ring : s.env.interruptCount < inputTicks)
    (stepped : blockStep (livePlatform o undefinedShift) s = some t)
    (calm : t.env.quitting = false) :
    blockStep (livePlatform o.calmed undefinedShift) s = some t := by
  obtain ⟨i, decoded, executed⟩ := blockStep_decodes _ stepped
  apply blockStep_of_exec _ decoded
  rw [← executed]
  apply exec_calmed
  intro services
  apply interrupt_calmed
  cases pressed : (o.keys s.env.serviced).getLsbD 31 with
  | false => rfl
  | true =>
    have keysDown := services_keysDown o undefinedShift (opcodeAt s.vm.memory s.vm.programCounter) services s
    rw [executed] at keysDown
    have quits := quitting_of_read o ring pressed keysDown
    rw [calm] at quits
    cases quits

end

theorem blockStep_of_ok {E : Type} {P : Platform E} {s : State E}
    (ok : ((Interpreter.basicBlock P s).1 == 0#32) = true) :
    blockStep P s = some (Interpreter.basicBlock P s).2 := by
  unfold blockStep
  rw [if_pos ok]

/-! ## The plain engine keeps up -/

section
variable (o : Outside) (undefinedShift : Byte → BitVec 32)

theorem plain_step {s t : State Live} (calm : s.env.quitting = false)
    (stepped : blockStep (livePlatform o undefinedShift) s = some t) :
    liveStep o undefinedShift false ⟨.loop, s⟩ = some ⟨.loop, t⟩ := by
  have executed := (blockStep_eq_some _).mp stepped
  unfold liveStep mainPass
  dsimp only
  rw [calm, executed]
  rfl

theorem plain_leaves {s : State Live} {x : Reg}
    (loop : IdleAt s.vm.memory s.vm.programCounter x) (calm : s.env.quitting = false)
    (expired : s.env.delayTimer = 0#8) :
    Run.after (liveStep o undefinedShift false) 2 ⟨.loop, s⟩ =
      some ⟨.loop, ⟨leaveIdle x s.vm, s.env⟩⟩ := by
  obtain ⟨u, first, sameEnv, second⟩ := head_leaves o undefinedShift loop expired
  apply Run.after_succ.mpr
  refine ⟨_, plain_step o undefinedShift calm first, ?_⟩
  rw [← sameEnv] at calm
  exact plain_step o undefinedShift calm second

theorem plain_spins {s : State Live} {x : Reg}
    (loop : IdleAt s.vm.memory s.vm.programCounter x) (calm : s.env.quitting = false)
    (waits : s.env.delayTimer ≠ 0#8) :
    Run.after (liveStep o undefinedShift false) 3 ⟨.loop, s⟩ =
      some ⟨.loop, ⟨s.vm.setReg x s.env.delayTimer, s.env.interrupt o⟩⟩ := by
  obtain ⟨u, v, first, sameU, second, sameV, third⟩ := head_waits o undefinedShift loop waits
  have calmU : u.env.quitting = false := by
    rw [sameU]
    exact calm
  have calmV : v.env.quitting = false := by
    rw [sameV]
    exact calm
  apply Run.after_succ.mpr
  refine ⟨_, ?_, plain_step o undefinedShift calmV third⟩
  apply Run.after_succ.mpr
  exact ⟨_, plain_step o undefinedShift calm first, plain_step o undefinedShift calmU second⟩

/-- How a state of the plain engine follows one of the waiting engine: in a wait the
polled register may show an old timer. -/
inductive Follows : Main → Main → Prop where
  | loop {s : State Live} (ring : s.env.interruptCount < inputTicks) :
      Follows ⟨.loop, s⟩ ⟨.loop, s⟩
  | waits {s : State Live} {x : Reg} (ring : s.env.interruptCount < inputTicks)
      (loop : IdleAt s.vm.memory s.vm.programCounter x) (v : Byte) :
      Follows ⟨.idleWait x, s⟩ ⟨.loop, ⟨s.vm.setReg x v, s.env⟩⟩

/-- The engine goes on, and no quit key is in the ring. -/
structure GoesOn (m : Main) : Prop where
  calm : m.state.env.quitting = false
  phase : m.phase ≠ .finished

theorem goesOn_backwards {m m' : Main} (stepped : liveStep o undefinedShift true m = some m')
    (goesOn : GoesOn m') : GoesOn m := by
  obtain ⟨phase, s⟩ := m
  cases phase with
  | loop =>
    cases stepped
    refine ⟨?_, (fun finished => nomatch finished)⟩
    cases quits : s.env.quitting with
    | false => rfl
    | true =>
      apply absurd _ goesOn.phase
      unfold mainPass
      dsimp only
      rw [quits]
      rfl
  | idleWait x =>
    cases stepped
    refine ⟨?_, (fun finished => nomatch finished)⟩
    have calm := goesOn.calm
    unfold idlePass at calm
    dsimp only at calm
    split at calm
    · rename_i env looped
      exact (idleLoop_some o looped).2.1
    · exact calm
  | finished => cases stepped

theorem follows_main {s : State Live} {m' p : Main} (follows : Follows ⟨.loop, s⟩ p)
    (stepped : liveStep o undefinedShift true ⟨.loop, s⟩ = some m') (goesOn : GoesOn m') :
    ∃ k p', Run.after (liveStep o.calmed undefinedShift false) k p = some p' ∧ Follows m' p' := by
  cases follows with
  | loop ring =>
  have calm := (goesOn_backwards o undefinedShift stepped goesOn).calm
  cases stepped
  unfold mainPass at goesOn ⊢
  dsimp only at calm goesOn ⊢
  rw [calm] at goesOn ⊢
  simp only [Bool.false_eq_true, if_false] at goesOn ⊢
  cases waits : elided true s with
  | some x =>
    -- The plain engine stands at the head of the loop.
    unfold elided at waits
    split at waits
    · refine ⟨0, _, rfl, ?_⟩
      have start := Follows.waits ring (idleAt_of_recognised waits) (s.vm.regs x)
      rw [setReg_self] at start
      exact start
    · cases waits
  | none =>
    rw [waits] at goesOn
    dsimp only at goesOn ⊢
    split at goesOn
    · rename_i ok
      rw [if_pos ok]
      refine ⟨1, _, plain_step o.calmed undefinedShift calm
        (block_calmed o undefinedShift ring (blockStep_of_ok ok) goesOn.calm), ?_⟩
      exact .loop (basicBlock_ring o undefinedShift ring)
    · exact absurd rfl goesOn.phase

theorem follows_wait {s : State Live} {x : Reg} {m' p : Main}
    (follows : Follows ⟨.idleWait x, s⟩ p)
    (stepped : liveStep o undefinedShift true ⟨.idleWait x, s⟩ = some m') (goesOn : GoesOn m') :
    ∃ k p', Run.after (liveStep o.calmed undefinedShift false) k p = some p' ∧ Follows m' p' := by
  cases follows with
  | waits ring loop v =>
  have calm := (goesOn_backwards o undefinedShift stepped goesOn).calm
  cases stepped
  unfold idlePass at goesOn ⊢
  dsimp only at calm goesOn ⊢
  -- A pass of the wait is three instructions of the loop; the end of it is two and the way out.
  cases looped : idleLoop o s.env with
  | some env =>
    rw [looped] at goesOn
    dsimp only at goesOn
    obtain ⟨waits, -, rfl⟩ := idleLoop_some o looped
    have spun := @plain_spins o.calmed undefinedShift ⟨s.vm.setReg x v, s.env⟩ x loop calm waits
    rw [show s.env.interrupt o.calmed = s.env.interrupt o from ?_] at spun
    · refine ⟨3, _, spun, ?_⟩
      dsimp only
      rw [setReg_setReg]
      exact @Follows.waits ⟨s.vm, s.env.interrupt o⟩ x (interrupt_ring o s.env) loop s.env.delayTimer
    · apply interrupt_calmed
      cases pressed : (o.keys s.env.serviced).getLsbD 31 with
      | false => rfl
      | true =>
        have quits := quitting_of_read o ring pressed rfl
        have calm := goesOn.calm
        rw [quits] at calm
        cases calm
  | none =>
    unfold idleLoop at looped
    rw [calm, Bool.or_false] at looped
    split at looped
    · rename_i expired
      refine ⟨2, _, @plain_leaves o.calmed undefinedShift ⟨s.vm.setReg x v, s.env⟩ x loop calm
        (beq_iff_eq.mp expired), ?_⟩
      have left : leaveIdle x (s.vm.setReg x v) = leaveIdle x s.vm :=
        congrArg (fun vm => vm.setPc (s.vm.programCounter + 6)) (setReg_setReg s.vm x v 0#8)
      rw [left]
      exact @Follows.loop ⟨leaveIdle x s.vm, s.env⟩ ring
    · cases looped

/-- The plain engine, told the same without the quit key, follows the waiting one as
long as that goes on. -/
theorem plain_simulates :
    Run.Simulation (liveStep o undefinedShift true) (liveStep o.calmed undefinedShift false)
      GoesOn Follows where
  backwards := fun _ _ stepped goesOn => goesOn_backwards o undefinedShift stepped goesOn
  simulate := by
    rintro ⟨phase, s⟩ m' p follows stepped goesOn
    cases phase with
    | loop => exact follows_main o undefinedShift follows stepped goesOn
    | idleWait x => exact follows_wait o undefinedShift follows stepped goesOn
    | finished => cases stepped

theorem quit_in_wait {rom : List Byte} {tick : Int} {n : Nat} {x : Reg} {s : State Live}
    (run : Run.after (liveStep o undefinedShift true) n (Main.boot rom tick) =
      some ⟨.idleWait x, s⟩)
    (quit : s.env.quitting = true) :
    ∃ k r, Run.after (liveStep o undefinedShift true) k (Main.boot rom tick) =
        some ⟨.idleWait x, r⟩ ∧ r.env.quitting = false ∧ r.env.delayTimer ≠ 0#8 ∧
      s = ⟨r.vm, r.env.interrupt o⟩ := by
  cases n with
  | zero => cases run
  | succ k =>
    obtain ⟨⟨phase, r⟩, earlier, last⟩ := Run.after_succ.mp run
    refine ⟨k, r, ?_⟩
    cases phase with
    | loop =>
      -- A wait is only begun without a quit key in the ring.
      have passed := Option.some.inj last
      unfold mainPass at passed
      dsimp only at passed
      split at passed
      · cases passed
      · rename_i calm
        split at passed
        · cases passed
          exact absurd quit calm
        · split at passed <;> cases passed
    | idleWait y =>
      have passed := Option.some.inj last
      unfold idlePass at passed
      dsimp only at passed
      split at passed
      · rename_i env looped
        obtain ⟨waits, calm, rfl⟩ := idleLoop_some o looped
        cases passed
        exact ⟨earlier, calm, waits, rfl⟩
      · cases passed
    | finished => cases last

theorem interrupt_delay (e : Live) :
    (e.interrupt o.calmed).delayTimer = (e.interrupt o).delayTimer := by
  unfold Live.interrupt Live.countTimers
  rw [show o.calmed.ticks = o.ticks from rfl]
  split <;> rfl

/-- What the engines with and without `--elide-idle` have in common: the ROM, the random
numbers and the keys that are waited for. -/
structure SameHost (o o' : Outside) : Prop where
  rand : o'.rand = o.rand
  awaited : o'.awaited = o.awaited

/-- A state at the top of the loop of `main`, where the quit key is tested, that the
engine without `--elide-idle` comes to for some ticks and key masks, with the registers,
program counter and delay timer of `t`. -/
def PlainReaches (rom : List Byte) (t : State Live) : Prop :=
  ∃ o' tick n p, SameHost o o' ∧
    Run.after (liveStep o' undefinedShift false) n (Main.boot rom tick) = some ⟨.loop, p⟩ ∧
    p.vm.regs = t.vm.regs ∧ p.vm.programCounter = t.vm.programCounter ∧
    p.env.delayTimer = t.env.delayTimer

/-- The final state `t` of an engine that was waiting the loop at `pc` out, as the plain
engine could have left it. -/
structure QuitsLikePlain (rom : List Byte) (pc : Word) (x : Reg) (t : State Live) : Prop where
  reached : PlainReaches o undefinedShift rom t
  loopTest : ¬ (t.vm.programCounter = pc + 6 ∧ t.vm.regs x = 0#8 ∧ t.env.delayTimer ≠ 0#8)

theorem expired_reached {rom : List Byte} {tick : Int} {n : Nat} {x : Reg} {s : State Live}
    (run : Run.after (liveStep o undefinedShift true) n (Main.boot rom tick) =
      some ⟨.idleWait x, s⟩)
    (quit : s.env.quitting = true) (expired : s.env.delayTimer = 0#8) :
    PlainReaches o undefinedShift rom ⟨leaveIdle x s.vm, s.env⟩ := by
  obtain ⟨k, r, earlier, calm, waits, rfl⟩ := quit_in_wait o undefinedShift run quit
  have start : Follows (Main.boot rom tick) (Main.boot rom tick) := .loop (Nat.zero_lt_succ 9)
  obtain ⟨j, p, plain, follows⟩ :=
    (plain_simulates o undefinedShift).run start earlier ⟨calm, (fun finished => nomatch finished)⟩
  cases follows with
  | waits ring loop v =>
  -- The last pass services the timers without reading the key, and finds them expired.
  have spun := @plain_spins o.calmed undefinedShift ⟨r.vm.setReg x v, r.env⟩ x loop calm waits
  have unread := quitting_interrupt calm (calmed_calm o r.env.serviced)
  have zero := (interrupt_delay o r.env).trans expired
  have left := @plain_leaves o.calmed undefinedShift
    ⟨(r.vm.setReg x v).setReg x r.env.delayTimer, r.env.interrupt o.calmed⟩ x loop unread zero
  refine ⟨o.calmed, tick, _, _, ⟨rfl, rfl⟩,
    Run.after_trans (Run.after_trans plain spun) left, ?_, rfl, interrupt_delay o r.env⟩
  show (((r.vm.setReg x v).setReg x r.env.delayTimer).setReg x 0#8).regs =
    (r.vm.setReg x 0#8).regs
  rw [setReg_setReg, setReg_setReg]

/-- The quit key found while a loop is waited out ends the run, in a state of the plain
engine exactly if the timer ran out in the service that read the key. -/
theorem quit_like_plain_iff {rom : List Byte} {tick : Int} {n : Nat} {x : Reg} {s : State Live}
    (run : Run.after (liveStep o undefinedShift true) n (Main.boot rom tick) =
      some ⟨.idleWait x, s⟩)
    (quit : s.env.quitting = true) :
    ∃ t, Run.after (liveStep o undefinedShift true) (n + 2) (Main.boot rom tick) =
        some ⟨.finished, t⟩ ∧
      (QuitsLikePlain o undefinedShift rom s.vm.programCounter x t ↔ s.env.delayTimer = 0#8) := by
  have leaves : liveStep o undefinedShift true ⟨.idleWait x, s⟩ =
      some ⟨.loop, ⟨leaveIdle x s.vm, s.env⟩⟩ := by
    simp only [liveStep, idlePass, idleLoop, quit, Bool.or_true, if_true]
  have stops : liveStep o undefinedShift true ⟨.loop, ⟨leaveIdle x s.vm, s.env⟩⟩ =
      some ⟨.finished, ⟨leaveIdle x s.vm, s.env⟩⟩ := by
    simp only [liveStep, mainPass, quit, if_true]
  refine ⟨_, Run.after_succ.mpr ⟨_, Run.after_succ.mpr ⟨_, run, leaves⟩, stops⟩, ?_, ?_⟩
  · rintro ⟨-, loopTest⟩
    by_contra waits
    exact loopTest ⟨rfl, Function.update_self _ _ _, waits⟩
  · intro expired
    refine ⟨expired_reached o undefinedShift run quit expired, ?_⟩
    rintro ⟨-, -, waits⟩
    exact waits expired

end

/-- Set the delay timer to five, wait for it at 0x204, and spin at 0x20A. -/
def waitThenSpin : List Byte :=
  [0x61#8, 0x05#8, 0xF1#8, 0x15#8, 0xF1#8, 0x07#8, 0x31#8, 0x00#8, 0x12#8, 0x04#8, 0x12#8, 0x0A#8]

/-- The quit key in the first mask that is read, and no tick. -/
def quitAtOnce : Outside := { quietOutside with keys := fun _ => quitBit }

/-- Where the plain engine is in `waitThenSpin`. -/
structure Spot (t : State Live) : Prop where
  memory : t.vm.memory = loadRom waitThenSpin
  place : t.vm.programCounter = 0x200#16 ∨ t.vm.programCounter = 0x202#16 ∨
    t.vm.programCounter = 0x204#16 ∨
    t.vm.programCounter = 0x206#16 ∧ t.vm.regs 1#4 = t.env.delayTimer ∨
    t.vm.programCounter = 0x208#16 ∨ t.vm.programCounter = 0x20A#16 ∧ t.env.delayTimer = 0#8

theorem interrupt_expired {o : Outside} {e : Live} (expired : e.delayTimer = 0#8) :
    (e.interrupt o).delayTimer = 0#8 := by
  unfold Live.interrupt Live.countTimers
  split
  · simp only [Live.recordKeys, expired]
    decide
  · exact expired

theorem spot_step {o : Outside} {undefinedShift : Byte → BitVec 32} {t t' : State Live}
    (spot : Spot t) (stepped : blockStep (livePlatform o undefinedShift) t = some t') :
    Spot t' := by
  obtain ⟨memory, place⟩ := spot
  have at' (i : Insn) {pc : Word} (here : t.vm.programCounter = pc)
      (decoded : decode (opcodeAt (loadRom waitThenSpin) pc) = some i) :
      decode (opcodeAt t.vm.memory t.vm.programCounter) = some i := by
    rw [memory, here]
    exact decoded
  obtain here | here | here | ⟨here, shows⟩ | here | ⟨here, expired⟩ := place
  · rw [blockStep_of_exec _ (at' (.ld 1#4 5#8) here (by decide)) rfl] at stepped
    cases stepped
    exact ⟨memory, .inr (.inl (congrArg (· + 2#16) here))⟩
  · rw [blockStep_of_exec _ (at' (.setDelay 1#4) here (by decide)) rfl] at stepped
    cases stepped
    exact ⟨memory, .inr (.inr (.inl (congrArg (· + 2#16) here)))⟩
  · rw [block_poll o undefinedShift (at' (.ldDelay 1#4) here (by decide))] at stepped
    cases stepped
    exact ⟨memory, .inr (.inr (.inr (.inl ⟨congrArg (· + 2#16) here, regs_setReg t.vm 1#4 _⟩)))⟩
  · have test := at' (.skip (.eqImm 1#4 0#8)) here (by decide)
    by_cases zero : t.vm.regs 1#4 = 0#8
    · rw [block_expired o undefinedShift test zero] at stepped
      cases stepped
      exact ⟨memory, .inr (.inr (.inr (.inr (.inr
        ⟨congrArg (· + 4#16) here, shows.symm.trans zero⟩))))⟩
    · rw [block_waits o undefinedShift test zero] at stepped
      cases stepped
      exact ⟨memory, .inr (.inr (.inr (.inr (.inl (congrArg (· + 2#16) here)))))⟩
  · rw [block_back o undefinedShift (at' (.jp 0x204#12) here (by decide))] at stepped
    cases stepped
    exact ⟨memory, .inr (.inr (.inl rfl))⟩
  · rw [block_back o undefinedShift (at' (.jp 0x20A#12) here (by decide))] at stepped
    cases stepped
    exact ⟨memory, .inr (.inr (.inr (.inr (.inr ⟨rfl, interrupt_expired expired⟩))))⟩

theorem spot_run {o : Outside} {undefinedShift : Byte → BitVec 32} {tick : Int} {n : Nat}
    {m : Main} (run : Run.after (liveStep o undefinedShift false) n (Main.boot waitThenSpin tick) =
      some m) :
    m.phase = .finished ∨ m.phase = .loop ∧ Spot m.state := by
  apply Run.invariant _ (.inr ⟨rfl, rfl, .inl rfl⟩) run
  rintro ⟨phase, r⟩ m' (rfl | ⟨rfl, spot⟩) last
  · cases last
  · cases last
    unfold mainPass
    split
    · exact .inl rfl
    · simp only [elided, Bool.false_and, Bool.false_eq_true, if_false]
      split
      · rename_i ok
        exact .inr ⟨rfl, spot_step spot (blockStep_of_ok ok)⟩
      · exact .inl rfl

end ChipEight
