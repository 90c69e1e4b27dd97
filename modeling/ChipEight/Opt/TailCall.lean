import ChipEight.Machine.Effects
import ChipEight.Machine.Tape
import Mathlib.Tactic.IntervalCases

/-! Tail calls: `CALL x` immediately followed by `RET` becomes `JP x`.

The rewritten program never pushes the address of the `RET` behind a rewritten call.
While the original unwinds through such `RET`s, the rewritten program waits at the
`RET` that began the unwinding.
-/

set_option autoImplicit false

namespace ChipEight.Opt

open Interpreter

/-- The word whose high byte is at `a`. -/
def wordAt (memory : Memory) (a : Addr) : Word :=
  (memory a).setWidth 16 <<< 8 ||| (memory (a + 1)).setWidth 16

theorem mask_add (a b : Word) : mask (a + b) = mask a + mask b :=
  BitVec.setWidth_add a b (by decide)

theorem opcodeAt_eq (memory : Memory) (pc : Word) :
    opcodeAt memory pc = wordAt memory (mask pc) := by
  rw [opcodeAt, wordAt, mask_add]
  rfl

def retWord : Word := 0x00ee#16

/-- `CALL x` at `a` with `RET` right behind it. -/
def TailCall (memory : Memory) (a : Addr) : Prop :=
  opClass (wordAt memory a) = 2 ∧ wordAt memory (a + 2) = retWord

instance (memory : Memory) (a : Addr) : Decidable (TailCall memory a) :=
  inferInstanceAs (Decidable (_ ∧ _))

/-- The high byte of `JP x` from that of `CALL x`. -/
def jumpByte (b : Byte) : Byte := 0x10#8 ||| (b &&& 0x0f#8)

/-- `JP x` in the place of the `CALL x` at every site. -/
def rewriteTailCalls (sites : Addr → Bool) (rom : List Byte) : List Byte :=
  rom.mapIdx fun i b => if sites (mask (entrypoint + BitVec.ofNat 16 i)) then jumpByte b else b

/-! ## Memory of the two programs -/

/-- The rewritten memory `m'` beside the original memory `m`. -/
structure Shadow (sites : Addr → Bool) (m m' : Memory) : Prop where
  tailCall : ∀ a, sites a = true → TailCall m a
  jump : ∀ a, sites a = true → m' a = jumpByte (m a)
  other : ∀ a, sites a = false → m' a = m a

/-- The bytes of the rewritten words and of the `RET`s after them. -/
def Guarded (sites : Addr → Bool) (a : Addr) : Prop :=
  ∃ site, sites site = true ∧ (a = site ∨ a = site + 1 ∨ a = site + 2 ∨ a = site + 3)

/-- The word at `pc` does not overlap a rewritten word only in part. -/
def Aligned (sites : Addr → Bool) (pc : Word) : Prop :=
  sites (mask pc + 1) = false ∧ sites (mask pc - 1) = false

instance (sites : Addr → Bool) (pc : Word) : Decidable (Aligned sites pc) :=
  inferInstanceAs (Decidable (_ ∧ _))

/-- What the original may do in a state it executes from. -/
structure Respects (sites : Addr → Bool) (vm : VM) : Prop where
  aligned : Aligned sites vm.programCounter
  data : ∀ i, decode (opcodeAt vm.memory vm.programCounter) = some i →
    ∀ a ∈ i.read vm.addr ++ i.written vm.addr, ¬ Guarded sites a

section
variable {sites : Addr → Bool} {m m' : Memory}

theorem Shadow.word_other (shadow : Shadow sites m m') {a : Addr} (plain : sites a = false)
    (aligned : sites (a + 1) = false) : wordAt m' a = wordAt m a := by
  rw [wordAt, wordAt, shadow.other a plain, shadow.other (a + 1) aligned]

theorem Shadow.word_site (shadow : Shadow sites m m') {a : Addr} (site : sites a = true)
    (aligned : sites (a + 1) = false) :
    wordAt m' a = 0x1000#16 ||| (wordAt m a &&& 0x0fff#16) := by
  rw [wordAt, wordAt, shadow.jump a site, shadow.other (a + 1) aligned, jumpByte]
  generalize m a = high
  generalize m (a + 1) = low
  apply BitVec.eq_of_getLsbD_eq
  intro i small
  interval_cases i <;> simp

theorem opClass_jump (op : Word) : opClass (0x1000#16 ||| (op &&& 0x0fff#16)) = 1 := by
  have high : (0x1000#16 ||| (op &&& 0x0fff#16)) &&& 0xf000#16 = 0x1000#16 := by
    rw [BitVec.and_or_distrib_right, BitVec.and_assoc]
    simp
  rw [opClass, high]
  rfl

theorem immediate12_jump (op : Word) :
    immediate12 (0x1000#16 ||| (op &&& 0x0fff#16)) = immediate12 op := by
  apply BitVec.eq_of_getLsbD_eq
  intro i small
  interval_cases i <;> simp [immediate12]

theorem decode_jump (op : Word) :
    decode (0x1000#16 ||| (op &&& 0x0fff#16)) = some (.jp (immediate12 op)) := by
  obtain ⟨notCls, notRet⟩ := not_miscellaneous (opClass_jump op)
  rw [decode, notCls, notRet, opClass_jump, immediate12_jump]
  rfl

theorem decode_call {op : Word} (cls : opClass op = 2) :
    decode op = some (.call (immediate12 op)) := by
  obtain ⟨notCls, notRet⟩ := not_miscellaneous cls
  rw [decode, notCls, notRet, cls]
  rfl

theorem decode_ret {op : Word} (decoded : decode op = some .ret) : op = retWord := by
  unfold decode decodeF at decoded
  split at decoded
  · cases decoded
  split at decoded
  · rename_i ret
    exact beq_iff_eq.mp ret
  split at decoded
  case h_9 =>
    obtain ⟨o, -, same⟩ := Option.map_eq_some_iff.mp decoded
    cases same
  case h_15 => split at decoded <;> cases decoded
  case h_16 => split at decoded <;> cases decoded
  all_goals cases decoded

/-! ## Stacks -/

/-- The return addresses on the stack, the oldest first. -/
def frames (vm : VM) : List Word := (List.range vm.stackPointer.toNat).map vm.stack

def popFrame (vm : VM) : VM :=
  { vm with
    stackPointer := vm.stackPointer - 1
    programCounter := vm.stack (vm.stackPointer - 1).toNat }

def pushFrame (vm : VM) (target : Word) : VM :=
  { vm with
    stack := Function.update vm.stack vm.stackPointer.toNat (vm.programCounter + 2)
    stackPointer := vm.stackPointer + 1
    programCounter := target }

/-- A return address behind a rewritten call. -/
def pending (sites : Addr → Bool) (v : Word) : Bool := sites (mask (v - 2))

/-- The frames that stay when the calls at `sites` are rewritten. -/
def erase (sites : Addr → Bool) (stack : List Word) : List Word :=
  stack.filter fun v => !pending sites v

theorem erase_pending {v : Word} (behind : pending sites v = true) (stack : List Word) :
    erase sites (stack ++ [v]) = erase sites stack := by
  simp [erase, behind]

theorem erase_kept {v : Word} (fresh : pending sites v = false) (stack : List Word) :
    erase sites (stack ++ [v]) = erase sites stack ++ [v] := by
  simp [erase, fresh]

theorem frames_push (vm : VM) (target : Word) (nonneg : 0 ≤ vm.stackPointer) :
    frames (pushFrame vm target) = frames vm ++ [vm.programCounter + 2] := by
  have next : (vm.stackPointer + 1).toNat = vm.stackPointer.toNat + 1 := by omega
  unfold frames pushFrame
  dsimp only
  rw [next, List.range_succ, List.map_append, List.map_singleton, Function.update_self]
  congr 1
  apply List.map_congr_left
  intro i small
  exact Function.update_of_ne (Nat.ne_of_lt (List.mem_range.mp small)) _ _

theorem frames_pop (vm : VM) (positive : 0 < vm.stackPointer) :
    frames vm = frames (popFrame vm) ++ [(popFrame vm).programCounter] := by
  have next : vm.stackPointer.toNat = (vm.stackPointer - 1).toNat + 1 := by omega
  unfold frames popFrame
  dsimp only
  rw [next, List.range_succ, List.map_append, List.map_singleton]

theorem frames_length (vm : VM) : (frames vm).length = vm.stackPointer.toNat := by
  simp [frames]

theorem shadow_write {n n' : Memory} {written : List Addr} (shadow : Shadow sites m m')
    (away : ∀ a ∈ written, ¬ Guarded sites a) (kept : ∀ a ∉ written, n a = m a)
    (same : ∀ a ∈ written, n' a = n a) (kept' : ∀ a ∉ written, n' a = m' a) :
    Shadow sites n n' := by
  have near (a b : Addr) (site : sites a = true)
      (close : b = a ∨ b = a + 1 ∨ b = a + 2 ∨ b = a + 3) : b ∉ written :=
    fun inside => away b inside ⟨a, site, close⟩
  refine ⟨?_, ?_, ?_⟩
  · intro a site
    obtain ⟨call, ret⟩ := shadow.tailCall a site
    have third : a + 2 + 1 = a + 3 := by
      rw [BitVec.add_assoc]
      rfl
    constructor
    · rw [wordAt, kept a (near a a site (.inl rfl)),
        kept (a + 1) (near a (a + 1) site (.inr (.inl rfl)))]
      exact call
    · rw [wordAt, kept (a + 2) (near a (a + 2) site (.inr (.inr (.inl rfl)))), third,
        kept (a + 3) (near a (a + 3) site (.inr (.inr (.inr rfl)))), ← third]
      exact ret
  · intro a site
    have outside := near a a site (.inl rfl)
    rw [kept' a outside, kept a outside]
    exact shadow.jump a site
  · intro a plain
    by_cases inside : a ∈ written
    · exact same a inside
    · rw [kept' a inside, kept a inside]
      exact shadow.other a plain

end

/-! ## The simulation -/

/-- The original beside the rewritten program: equal but for the rewritten words and the
stack, and in step unless both are at a `RET`. -/
structure Related (sites : Addr → Bool) (s t : State Cursor) : Prop where
  shadow : Shadow sites s.vm.memory t.vm.memory
  regs : t.vm.regs = s.vm.regs
  addr : t.vm.addr = s.vm.addr
  screen : t.vm.screen = s.vm.screen
  env : t.env = s.env
  stack : frames t.vm = erase sites (frames s.vm)
  nonneg : 0 ≤ s.vm.stackPointer ∧ 0 ≤ t.vm.stackPointer
  control : t.vm.programCounter = s.vm.programCounter ∨
    opcodeAt s.vm.memory s.vm.programCounter = retWord ∧
      opcodeAt t.vm.memory t.vm.programCounter = retWord

/-- A return into the `RET` behind a rewritten call. -/
def UnwindsTailCall (sites : Addr → Bool) (vm : VM) : Prop :=
  opcodeAt vm.memory vm.programCounter = retWord ∧ 0 < vm.stackPointer ∧
    pending sites (vm.stack (vm.stackPointer - 1).toNat) = true

section
variable {tape : Tape} {undefinedShift : Byte → BitVec 32} {sites : Addr → Bool}
  {s s' t : State Cursor}

theorem blockStep_ret (ret : opcodeAt s.vm.memory s.vm.programCounter = retWord) :
    blockStep (tapePlatform tape undefinedShift) s =
      if 0 < s.vm.stackPointer then some ⟨popFrame s.vm, s.env⟩ else none := by
  have decoded : decode (opcodeAt s.vm.memory s.vm.programCounter) = some .ret := by
    rw [ret]
    rfl
  by_cases positive : 0 < s.vm.stackPointer
  · rw [if_pos positive]
    exact blockStep_of_exec _ decoded (if_pos positive)
  · rw [if_neg positive]
    exact blockStep_of_error _ (ret ▸ by decide) decoded (if_neg positive)

theorem blockStep_jp {nnn : Addr}
    (jp : decode (opcodeAt s.vm.memory s.vm.programCounter) = some (.jp nnn)) :
    blockStep (tapePlatform tape undefinedShift) s =
      some ⟨s.vm.setPc (nnn.setWidth 16), s.env⟩ :=
  blockStep_of_exec _ jp rfl

theorem blockStep_call {nnn : Addr}
    (call : decode (opcodeAt s.vm.memory s.vm.programCounter) = some (.call nnn)) :
    blockStep (tapePlatform tape undefinedShift) s =
      if s.vm.stackPointer < (stackSize : Int)
        then some ⟨pushFrame s.vm (nnn.setWidth 16), s.env⟩ else none := by
  have nonzero : opcodeAt s.vm.memory s.vm.programCounter ≠ 0#16 := by
    intro zero
    rw [zero, decode_zero] at call
    cases call
  by_cases room : s.vm.stackPointer < (stackSize : Int)
  · rw [if_pos room]
    exact blockStep_of_exec _ call (if_pos room)
  · rw [if_neg room]
    exact blockStep_of_error _ nonzero call (if_neg room)

theorem Shadow.pending_word {m m' : Memory} (shadow : Shadow sites m m') {v : Word}
    (behind : pending sites v = true) : opcodeAt m v = retWord := by
  have back : mask (v - 2) + 2 = mask v := by
    rw [show (2 : Addr) = mask 2 from rfl, ← mask_add, BitVec.sub_add_cancel]
  rw [opcodeAt_eq, ← back]
  exact (shadow.tailCall _ behind).2

theorem Shadow.not_site {m m' : Memory} (shadow : Shadow sites m m') {pc : Word}
    (ret : opcodeAt m pc = retWord) : sites (mask pc) = false := by
  rw [← Bool.not_eq_true]
  intro site
  have call := (shadow.tailCall _ site).1
  rw [← opcodeAt_eq, ret] at call
  cases call

theorem Related.ret_word (related : Related sites s t)
    (aligned : Aligned sites s.vm.programCounter)
    (ret : opcodeAt s.vm.memory s.vm.programCounter = retWord) :
    opcodeAt t.vm.memory t.vm.programCounter = retWord := by
  obtain same | ⟨-, waiting⟩ := related.control
  · rw [same, opcodeAt_eq, related.shadow.word_other (related.shadow.not_site ret) aligned.1,
      ← opcodeAt_eq]
    exact ret
  · exact waiting

theorem Related.simulate_ret (related : Related sites s t)
    (aligned : Aligned sites s.vm.programCounter)
    (ret : opcodeAt s.vm.memory s.vm.programCounter = retWord)
    (stepped : blockStep (tapePlatform tape undefinedShift) s = some s') :
    (UnwindsTailCall sites s.vm ∧ Related sites s' t) ∨
      ∃ t', blockStep (tapePlatform tape undefinedShift) t = some t' ∧ Related sites s' t' := by
  rw [blockStep_ret ret] at stepped
  have positive : 0 < s.vm.stackPointer := by
    by_contra none
    rw [if_neg none] at stepped
    cases stepped
  rw [if_pos positive] at stepped
  cases stepped
  have ret' := related.ret_word aligned ret
  have popped := frames_pop s.vm positive
  have nonneg : 0 ≤ (popFrame s.vm).stackPointer := Int.sub_nonneg_of_le positive
  cases behind : pending sites (popFrame s.vm).programCounter with
  | true =>
    -- The rewritten program never pushed this address: it waits.
    refine .inl ⟨⟨ret, positive, behind⟩, related.shadow, related.regs, related.addr,
      related.screen, related.env, ?_, ⟨nonneg, related.nonneg.2⟩,
      .inr ⟨related.shadow.pending_word behind, ret'⟩⟩
    rw [related.stack, popped, erase_pending behind]
  | false =>
    have stack : frames t.vm = erase sites (frames (popFrame s.vm)) ++
        [(popFrame s.vm).programCounter] := by
      rw [related.stack, popped, erase_kept behind]
    have positive' : 0 < t.vm.stackPointer := by
      have long := congrArg List.length stack
      rw [frames_length, List.length_append, List.length_singleton] at long
      omega
    rw [frames_pop t.vm positive'] at stack
    obtain ⟨below, top⟩ := List.append_inj' stack rfl
    refine .inr ⟨⟨popFrame t.vm, t.env⟩, ?_, related.shadow, related.regs, related.addr,
      related.screen, related.env, below, ⟨nonneg, Int.sub_nonneg_of_le positive'⟩,
      .inl (List.singleton_inj.mp top)⟩
    rw [blockStep_ret ret', if_pos positive']

/-- A rewritten call: the original pushes an address the rewritten program does without. -/
theorem Related.simulate_site (related : Related sites s t)
    (aligned : Aligned sites s.vm.programCounter) (site : sites (mask s.vm.programCounter) = true)
    (same : t.vm.programCounter = s.vm.programCounter)
    (stepped : blockStep (tapePlatform tape undefinedShift) s = some s') :
    ∃ t', blockStep (tapePlatform tape undefinedShift) t = some t' ∧ Related sites s' t' := by
  have call : decode (opcodeAt s.vm.memory s.vm.programCounter) = some
      (.call (immediate12 (opcodeAt s.vm.memory s.vm.programCounter))) := by
    apply decode_call
    rw [opcodeAt_eq]
    exact (related.shadow.tailCall _ site).1
  have jump : decode (opcodeAt t.vm.memory t.vm.programCounter) = some
      (.jp (immediate12 (opcodeAt s.vm.memory s.vm.programCounter))) := by
    rw [same, opcodeAt_eq t.vm.memory, related.shadow.word_site site aligned.1, ← opcodeAt_eq]
    exact decode_jump _
  rw [blockStep_call call, Option.ite_none_right_eq_some] at stepped
  obtain ⟨-, pushed⟩ := stepped
  cases pushed
  have behind : pending sites (s.vm.programCounter + 2) = true := by
    rw [pending, BitVec.add_sub_cancel]
    exact site
  refine ⟨_, blockStep_jp jump, related.shadow, related.regs, related.addr, related.screen,
    related.env, ?_, ⟨Int.add_nonneg related.nonneg.1 (by decide), related.nonneg.2⟩, .inl rfl⟩
  rw [frames_push s.vm _ related.nonneg.1, erase_pending behind]
  exact related.stack

theorem Related.simulate_call (related : Related sites s t) {nnn : Addr}
    (plain : sites (mask s.vm.programCounter) = false)
    (same : t.vm.programCounter = s.vm.programCounter)
    (word : opcodeAt t.vm.memory t.vm.programCounter =
      opcodeAt s.vm.memory s.vm.programCounter)
    (call : decode (opcodeAt s.vm.memory s.vm.programCounter) = some (.call nnn))
    (stepped : blockStep (tapePlatform tape undefinedShift) s = some s') :
    ∃ t', blockStep (tapePlatform tape undefinedShift) t = some t' ∧ Related sites s' t' := by
  rw [blockStep_call call, Option.ite_none_right_eq_some] at stepped
  obtain ⟨room, pushed⟩ := stepped
  cases pushed
  rw [← word] at call
  have shorter : t.vm.stackPointer ≤ s.vm.stackPointer := by
    have short := congrArg List.length related.stack
    have filtered := List.length_filter_le (fun v => !pending sites v) (frames s.vm)
    rw [erase, frames_length] at short
    rw [frames_length] at filtered
    have nonneg := related.nonneg
    omega
  have fresh : pending sites (s.vm.programCounter + 2) = false := by
    rw [pending, BitVec.add_sub_cancel]
    exact plain
  refine ⟨⟨pushFrame t.vm _, t.env⟩, ?_, related.shadow, related.regs, related.addr,
    related.screen, related.env, ?_, ⟨Int.add_nonneg related.nonneg.1 (by decide),
      Int.add_nonneg related.nonneg.2 (by decide)⟩, .inl rfl⟩
  · rw [blockStep_call call, if_pos (Int.lt_of_le_of_lt shorter room)]
  · rw [frames_push s.vm _ related.nonneg.1, frames_push t.vm _ related.nonneg.2, same,
      related.stack, erase_kept fresh]

theorem Related.simulate_plain (related : Related sites s t) (respects : Respects sites s.vm)
    (same : t.vm.programCounter = s.vm.programCounter)
    (word : opcodeAt t.vm.memory t.vm.programCounter =
      opcodeAt s.vm.memory s.vm.programCounter) {i : Insn}
    (decoded : decode (opcodeAt s.vm.memory s.vm.programCounter) = some i)
    (notRet : i ≠ .ret) (notCall : ∀ nnn, i ≠ .call nnn)
    (stepped : blockStep (tapePlatform tape undefinedShift) s = some s') :
    ∃ t', blockStep (tapePlatform tape undefinedShift) t = some t' ∧ Related sites s' t' := by
  rw [blockStep_eq_some, basicBlock_eq, decoded] at stepped
  dsimp only at stepped
  have away := respects.data i decoded
  -- The rewritten program differs in the words at the sites and in the stack alone.
  have graft : t = ⟨s.vm.graft t.vm.memory t.vm.stack t.vm.stackPointer, s.env⟩ := by
    obtain ⟨⟨regs, memory, stack, stackPointer, addr, programCounter, screen⟩, env⟩ := t
    obtain ⟨-, rfl, rfl, rfl, rfl, -, -, -⟩ := related
    cases same
    rfl
  have reads : ∀ a ∈ i.read s.vm.addr, t.vm.memory a = s.vm.memory a := by
    intro a inside
    apply related.shadow.other
    rw [← Bool.not_eq_true]
    intro site
    exact away a (List.mem_append_left _ inside) ⟨a, site, .inl rfl⟩
  obtain ⟨memory', executed, written, kept⟩ := exec_graft (tapePlatform tape undefinedShift)
    (opcodeAt s.vm.memory s.vm.programCounter) notRet notCall s t.vm.memory t.vm.stack
    t.vm.stackPointer reads
  obtain ⟨stack, stackPointer⟩ := exec_stack (tapePlatform tape undefinedShift)
    (opcodeAt s.vm.memory s.vm.programCounter) notRet notCall s
  have outside := fun a => @exec_memory _ (tapePlatform tape undefinedShift)
    (opcodeAt s.vm.memory s.vm.programCounter) i s a
  rw [stepped] at executed written stack stackPointer outside
  refine ⟨⟨s'.vm.graft memory' t.vm.stack t.vm.stackPointer, s'.env⟩, ?_, ?_, rfl, rfl, rfl, rfl,
    ?_, ?_, .inl rfl⟩
  · rw [← graft, ← word] at executed
    exact blockStep_of_exec _ (word ▸ decoded) executed
  · exact shadow_write related.shadow (fun a inside => away a (List.mem_append_right _ inside))
      (fun a => outside a) written kept
  · have below : frames s'.vm = frames s.vm := by
      unfold frames
      rw [stack, stackPointer]
    rw [below]
    exact related.stack
  · rw [stackPointer]
    exact related.nonneg

theorem Related.simulate (related : Related sites s t) (respects : Respects sites s.vm)
    (stepped : blockStep (tapePlatform tape undefinedShift) s = some s') :
    (UnwindsTailCall sites s.vm ∧ Related sites s' t) ∨
      ∃ t', blockStep (tapePlatform tape undefinedShift) t = some t' ∧ Related sites s' t' := by
  by_cases ret : opcodeAt s.vm.memory s.vm.programCounter = retWord
  · exact related.simulate_ret respects.aligned ret stepped
  have same := related.control.resolve_right fun both => ret both.1
  right
  cases site : sites (mask s.vm.programCounter) with
  | true => exact related.simulate_site respects.aligned site same stepped
  | false =>
    have word : opcodeAt t.vm.memory t.vm.programCounter =
        opcodeAt s.vm.memory s.vm.programCounter := by
      rw [same, opcodeAt_eq, opcodeAt_eq, related.shadow.word_other site respects.aligned.1]
    obtain ⟨i, decoded, -⟩ := blockStep_decodes _ stepped
    by_cases call : ∃ nnn, i = .call nnn
    · obtain ⟨nnn, rfl⟩ := call
      exact related.simulate_call site same word decoded stepped
    · have notRet : i ≠ .ret := by
        rintro rfl
        exact ret (decode_ret decoded)
      exact related.simulate_plain respects same word decoded notRet
        (fun nnn is => call ⟨nnn, is⟩) stepped

theorem tailCall_stuttering (tape : Tape) (undefinedShift : Byte → BitVec 32)
    (sites : Addr → Bool) :
    Run.Stuttering (blockStep (tapePlatform tape undefinedShift))
      (blockStep (tapePlatform tape undefinedShift)) (fun s => Respects sites s.vm)
      (fun s => UnwindsTailCall sites s.vm) (Related sites) where
  simulate _ _ _ related respects stepped := related.simulate respects stepped

/-! ## Returns on an empty stack -/

/-- A `RET` that has nothing to return to. -/
def EmptyReturn (vm : VM) : Prop :=
  opcodeAt vm.memory vm.programCounter = retWord ∧ vm.stackPointer = 0

/-- From `s`, which is at a `RET`, the run passes only through `RET`s behind rewritten
calls and ends at one with nothing to return to; it may end at once. -/
def UnwindsToEmpty (tape : Tape) (undefinedShift : Byte → BitVec 32) (sites : Addr → Bool)
    (s : State Cursor) : Prop :=
  opcodeAt s.vm.memory s.vm.programCounter = retWord ∧
    ∃ j last, Run.after (blockStep (tapePlatform tape undefinedShift)) j s = some last ∧
      EmptyReturn last.vm ∧ ∀ i, 0 < i → i ≤ j → ∀ u,
        Run.after (blockStep (tapePlatform tape undefinedShift)) i s = some u →
          pending sites u.vm.programCounter = true

theorem unwinds_of_pending {m' : Memory} (n : Nat) (shadow : Shadow sites s.vm.memory m')
    (ret : opcodeAt s.vm.memory s.vm.programCounter = retWord) (depth : s.vm.stackPointer = n)
    (all : erase sites (frames s.vm) = []) : UnwindsToEmpty tape undefinedShift sites s := by
  -- By the depth of the stack: every frame on it is one that a rewritten call has not pushed.
  induction n generalizing s with
  | zero =>
    refine ⟨ret, 0, s, rfl, ⟨ret, depth⟩, ?_⟩
    intro i positive none
    omega
  | succ n ih =>
    have positive : 0 < s.vm.stackPointer := by omega
    have popped := frames_pop s.vm positive
    have behind : pending sites (popFrame s.vm).programCounter = true := by
      cases fresh : pending sites (popFrame s.vm).programCounter with
      | true => rfl
      | false =>
        rw [popped, erase_kept fresh] at all
        exact absurd all (List.append_ne_nil_of_right_ne_nil _ (List.cons_ne_nil _ _))
    rw [popped, erase_pending behind] at all
    have depth' : (popFrame s.vm).stackPointer = n := by
      unfold popFrame
      dsimp only
      omega
    have stepped : blockStep (tapePlatform tape undefinedShift) s =
        some ⟨popFrame s.vm, s.env⟩ := by
      rw [blockStep_ret ret, if_pos positive]
    obtain ⟨-, j, last, run, empty, behindAll⟩ :=
      @ih ⟨popFrame s.vm, s.env⟩ shadow (shadow.pending_word behind) depth' all
    refine ⟨ret, j + 1, last, ?_, empty, ?_⟩
    · rw [Run.after_head, stepped]
      exact run
    · intro i positive within u reached
      obtain ⟨i, rfl⟩ := Nat.exists_eq_succ_of_ne_zero (Nat.ne_of_gt positive)
      rw [Run.after_head, stepped] at reached
      cases i with
      | zero =>
        cases reached
        exact behind
      | succ i => exact behindAll (i + 1) (Nat.succ_pos i) (Nat.le_of_succ_le_succ within) u reached

theorem pending_of_unwinds {m' : Memory} (shadow : Shadow sites s.vm.memory m')
    (unwinds : UnwindsToEmpty tape undefinedShift sites s) : erase sites (frames s.vm) = [] := by
  obtain ⟨ret, j, last, run, empty, behindAll⟩ := unwinds
  induction j generalizing s with
  | zero =>
    obtain rfl := Option.some.inj run
    have none : frames s.vm = [] := by
      apply List.eq_nil_of_length_eq_zero
      rw [frames_length, empty.2]
      rfl
    rw [none]
    rfl
  | succ j ih =>
    rw [Run.after_head, blockStep_ret ret] at run
    have positive : 0 < s.vm.stackPointer := by
      by_contra none
      rw [if_neg none] at run
      cases run
    rw [if_pos positive] at run
    have first := behindAll 1 Nat.one_pos (Nat.succ_le_succ (Nat.zero_le j))
      ⟨popFrame s.vm, s.env⟩ (by
        rw [Run.after_head, blockStep_ret ret, if_pos positive]
        rfl)
    have rest := @ih ⟨popFrame s.vm, s.env⟩ shadow (shadow.pending_word first) run (by
      intro i positive' within u reached
      apply behindAll (i + 1) (Nat.succ_pos i) (Nat.succ_le_succ within) u
      rw [Run.after_head, blockStep_ret ret, if_pos positive]
      exact reached)
    rw [frames_pop s.vm positive, erase_pending first]
    exact rest

/-- The rewritten program is at a `RET` with nothing to return to exactly when the
original is at one, or reaches one through `RET`s behind rewritten calls. -/
theorem Related.emptyReturn_iff (related : Related sites s t)
    (aligned : Aligned sites s.vm.programCounter) :
    EmptyReturn t.vm ↔ UnwindsToEmpty tape undefinedShift sites s := by
  constructor
  · rintro ⟨ret', empty⟩
    have ret : opcodeAt s.vm.memory s.vm.programCounter = retWord := by
      obtain same | ⟨waiting, -⟩ := related.control
      · rw [same, opcodeAt_eq] at ret'
        rw [opcodeAt_eq]
        cases site : sites (mask s.vm.programCounter) with
        | true =>
          rw [related.shadow.word_site site aligned.1] at ret'
          have jump := opClass_jump (wordAt s.vm.memory (mask s.vm.programCounter))
          rw [ret'] at jump
          cases jump
        | false =>
          rw [← related.shadow.word_other site aligned.1]
          exact ret'
      · exact waiting
    have none : frames t.vm = [] := by
      apply List.eq_nil_of_length_eq_zero
      rw [frames_length, empty]
      rfl
    rw [related.stack] at none
    obtain ⟨n, depth⟩ := Int.eq_ofNat_of_zero_le related.nonneg.1
    exact unwinds_of_pending n related.shadow ret depth none
  · intro unwinds
    refine ⟨related.ret_word aligned unwinds.1, ?_⟩
    have none := pending_of_unwinds related.shadow unwinds
    rw [← related.stack] at none
    have short := congrArg List.length none
    rw [frames_length, List.length_nil] at short
    have nonneg := related.nonneg.2
    omega

end

/-! ## Whole runs -/

/-- Every site is a tail call of the ROM. -/
def Placed (sites : Addr → Bool) (rom : List Byte) : Prop :=
  ∀ a, sites a = true → entrypoint.toNat ≤ a.toNat ∧
    a.toNat + 3 < entrypoint.toNat + rom.length ∧ TailCall (loadRom rom) a

/-- What the two programs have in common. -/
structure Visible (sites : Addr → Bool) (s t : State Cursor) : Prop where
  regs : t.vm.regs = s.vm.regs
  addr : t.vm.addr = s.vm.addr
  screen : t.vm.screen = s.vm.screen
  memory : ∀ a, sites a = false → t.vm.memory a = s.vm.memory a
  inputs : t.env = s.env
  stack : frames t.vm = erase sites (frames s.vm)

theorem loadRom_rewrite {sites : Addr → Bool} {rom : List Byte} (placed : Placed sites rom)
    (a : Addr) : loadRom (rewriteTailCalls sites rom) a =
      if sites a then jumpByte (loadRom rom a) else loadRom rom a := by
  have base : entrypoint.toNat = 512 := rfl
  unfold loadRom
  by_cases low : a.toNat < entrypoint.toNat
  · have plain : sites a = false := by
      rw [← Bool.not_eq_true]
      intro site
      exact absurd (placed a site).1 (Nat.not_le.mpr low)
    rw [if_pos low, if_pos low, plain]
    rfl
  · rw [if_neg low, if_neg low]
    have back : mask (entrypoint + BitVec.ofNat 16 (a.toNat - entrypoint.toNat)) = a := by
      have bound := a.isLt
      apply BitVec.eq_of_toNat_eq
      rw [mask, BitVec.toNat_setWidth, BitVec.toNat_add, BitVec.toNat_ofNat, base]
      omega
    simp only [rewriteTailCalls, List.getD_eq_getElem?_getD, List.getElem?_mapIdx]
    cases inside : rom[a.toNat - entrypoint.toNat]? with
    | some b => simp only [Option.map_some, Option.getD_some, back]
    | none =>
      -- No site lies behind the end of the ROM.
      have plain : sites a = false := by
        rw [← Bool.not_eq_true]
        intro site
        have short := List.getElem?_eq_none_iff.mp inside
        have fits := (placed a site).2.1
        omega
      rw [plain]
      rfl

theorem related_start {sites : Addr → Bool} {rom : List Byte} (placed : Placed sites rom) :
    Related sites (interpreterStart rom) (interpreterStart (rewriteTailCalls sites rom)) where
  shadow := by
    refine ⟨fun a site => (placed a site).2.2, ?_, ?_⟩
    · intro a site
      have rewritten := loadRom_rewrite placed a
      rw [if_pos site] at rewritten
      exact rewritten
    · intro a plain
      have rewritten := loadRom_rewrite placed a
      rw [plain] at rewritten
      exact rewritten
  regs := rfl
  addr := rfl
  screen := rfl
  env := rfl
  stack := rfl
  nonneg := ⟨Int.le_refl 0, Int.le_refl 0⟩
  control := .inl rfl

theorem Related.visible {sites : Addr → Bool} {s t : State Cursor} (related : Related sites s t) :
    Visible sites s t :=
  ⟨related.regs, related.addr, related.screen, related.shadow.other, related.env, related.stack⟩

/-- The rewritten ROM keeps pace with every run of the original, standing still only at
returns into a `RET` behind a rewritten call, and it finds its stack empty at a `RET`
exactly when the original does there or at one of the `RET`s it unwinds through. -/
theorem tail_call_simulation (tape : Tape) (undefinedShift : Byte → BitVec 32)
    {sites : Addr → Bool} {rom : List Byte} (placed : Placed sites rom) {n : Nat}
    {s : State Cursor}
    (run : Run.after (blockStep (tapePlatform tape undefinedShift)) n (interpreterStart rom) =
      some s)
    (respects : ∀ k < n, ∀ u,
      Run.after (blockStep (tapePlatform tape undefinedShift)) k (interpreterStart rom) = some u →
        Respects sites u.vm) :
    ∃ pace : Nat → Nat, pace 0 = 0 ∧
      (∀ k < n, pace (k + 1) = pace k + 1 ∨ pace (k + 1) = pace k ∧ ∀ u,
        Run.after (blockStep (tapePlatform tape undefinedShift)) k (interpreterStart rom) =
          some u → UnwindsTailCall sites u.vm) ∧
      ∀ k ≤ n, ∀ u,
        Run.after (blockStep (tapePlatform tape undefinedShift)) k (interpreterStart rom) =
          some u →
        ∃ t, Run.after (blockStep (tapePlatform tape undefinedShift)) (pace k)
            (interpreterStart (rewriteTailCalls sites rom)) = some t ∧
          Visible sites u t ∧
          (Aligned sites u.vm.programCounter →
            (EmptyReturn t.vm ↔ UnwindsToEmpty tape undefinedShift sites u)) := by
  obtain ⟨pace, start, steps, matched⟩ :=
    (tailCall_stuttering tape undefinedShift sites).pace (related_start placed) run respects
  refine ⟨pace, start, steps, ?_⟩
  intro k within u reached
  obtain ⟨t, reached', related⟩ := matched k within u reached
  exact ⟨t, reached', related.visible, fun aligned => related.emptyReturn_iff aligned⟩

/-- `CALL 0x204; JP 0x202`, and at `0x204` the subroutine `CALL 0x208; RET`. -/
def nestedCall : List Byte :=
  [0x22, 0x04, 0x12, 0x02, 0x22, 0x08, 0x00, 0xee, 0x60, 0x05, 0x00, 0xee]

theorem tail_call_simulation_nestedCall :
    ∃ pace : Nat → Nat, pace 0 = 0 ∧ ∃ t,
      Run.after (blockStep (tapePlatform quietTape fun _ => 0#32)) (pace 5)
        (interpreterStart (rewriteTailCalls (· == 0x204#12) nestedCall)) = some t ∧
      t.vm.regs 0#4 = 5#8 ∧ frames t.vm = [] := by
  have placed : Placed (· == 0x204#12) nestedCall := by
    intro a site
    obtain rfl := beq_iff_eq.mp site
    decide
  have run : Run.after (blockStep (tapePlatform quietTape fun _ => 0#32)) 5
      (interpreterStart nestedCall) = some _ := rfl
  obtain ⟨pace, start, -, matched⟩ := tail_call_simulation quietTape (fun _ => 0#32) placed run (by
    intro k small u reached
    obtain rfl | rfl | rfl | rfl | rfl : k = 0 ∨ k = 1 ∨ k = 2 ∨ k = 3 ∨ k = 4 := by omega
    all_goals
      cases reached
      refine ⟨by decide, fun i decoded a => ?_⟩
      cases decoded
      intro inside
      cases inside)
  obtain ⟨t, reached, visible, -⟩ := matched 5 (Nat.le_refl 5) _ run
  refine ⟨pace, start, t, reached, ?_, ?_⟩
  · rw [visible.regs]
    rfl
  · rw [visible.stack]
    rfl

end ChipEight.Opt
