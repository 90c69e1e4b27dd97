import ChipEight.Opt.Constants

/-! `analyze` against runs of the interpreter. -/

set_option autoImplicit false

namespace ChipEight.Opt

open Asm (Text Token wordDT wordK wordMemory wordBytes)

/-! ## Code in memory -/

/-- The bytes of the instruction statements. -/
def InCode (statements : List Statement) (a : Nat) : Prop :=
  ∃ s ∈ statements, isInstruction s = true ∧ (a = s.pc ∨ a = s.pc + 1)

instance (statements : List Statement) (a : Nat) : Decidable (InCode statements a) :=
  inferInstanceAs (Decidable (∃ s ∈ statements, _ ∧ (_ ∨ _)))

/-- The instruction statements are in memory. -/
def CodeIntact (statements : List Statement) (bytes : List Byte) (memory : Memory) : Prop :=
  ∀ a : Addr, InCode statements a.toNat → memory a = loadRom bytes a

theorem CodeIntact.exec {E : Type} {P : Platform E} {statements : List Statement}
    {bytes : List Byte} {s t : State E} {i : Insn} {op : Word} {r : BitVec 32}
    (intact : CodeIntact statements bytes s.vm.memory)
    (outside : ∀ a ∈ i.written s.vm.addr, ¬ InCode statements a.toNat)
    (executed : i.exec P op s = (r, t)) : CodeIntact statements bytes t.vm.memory := by
  intro a inside
  have away : a ∉ i.written s.vm.addr := fun written => outside a written inside
  have kept := exec_memory P op i s away
  rw [executed] at kept
  rw [← intact a inside]
  exact kept

theorem loadRom_at {bytes front rest : List Byte} {b : Byte} (split : bytes = front ++ b :: rest)
    {a : Addr} (here : a.toNat = entry + front.length) : loadRom bytes a = b := by
  have base : entrypoint.toNat = 512 := rfl
  have low : entry = 512 := rfl
  unfold loadRom
  rw [if_neg (by omega), split]
  have offset : a.toNat - entrypoint.toNat = front.length := by omega
  rw [offset]
  simp

section
variable {labels : Labels} {bytes : List Byte} {statements : List Statement}

theorem fetch_insn (program : Program labels bytes statements) {memory : Memory}
    (intact : CodeIntact statements bytes memory) {pc : Word} {i : Insn}
    (insn : InsnAt labels bytes statements pc.toNat i) :
    decode (opcodeAt memory pc) = some i ∧ 512 ≤ pc.toNat ∧ pc.toNat + 2 ≤ 4096 := by
  obtain ⟨s, m, found, stands⟩ := insn.stands
  obtain ⟨here, isPc, isInsn⟩ := instructionAt_mem found
  obtain ⟨w, ⟨front, rest, split, place⟩, decodes⟩ := stands.word
  have fits := program.fits
  have low : entry = 512 := rfl
  have size : bytes.length = front.length + 2 + rest.length := by
    rw [split, List.length_append, List.length_append]
    rfl
  have first : (mask pc).toNat = s.pc := by
    rw [mask, BitVec.toNat_setWidth]
    omega
  have second : (mask (pc + 1)).toNat = s.pc + 1 := by
    rw [mask, BitVec.toNat_setWidth, BitVec.toNat_add]
    show (pc.toNat + 1) % 2 ^ 16 % 2 ^ 12 = _
    omega
  -- Both bytes of the word are those the assembler wrote for the statement.
  have split₁ : bytes = front ++ (w >>> 8).setWidth 8 :: (w.setWidth 8 :: rest) := by
    rw [split, List.append_assoc]
    rfl
  have split₂ : bytes = (front ++ [(w >>> 8).setWidth 8]) ++ w.setWidth 8 :: rest := by
    rw [split₁, List.append_assoc]
    rfl
  have high := loadRom_at split₁ (first.trans place.symm)
  have lower : loadRom bytes (mask (pc + 1)) = w.setWidth 8 := by
    refine loadRom_at split₂ (second.trans ?_)
    rw [List.length_append, List.length_singleton]
    omega
  constructor
  · unfold opcodeAt
    rw [intact _ ⟨s, here, isInsn, .inl first⟩, intact _ ⟨s, here, isInsn, .inr second⟩, high, lower,
      Asm.word_of_bytes]
    exact decodes
  · omega

/-! ## Contexts -/

/-- The context a machine is in. -/
def contextAt (vm : VM) : Context :=
  (vm.programCounter.toNat, (List.range vm.stackPointer.toNat).map fun k => (vm.stack k).toNat)

theorem contextsAfter_flows {pc : Word} (room : pc.toNat + 4 < 2 ^ 16) {i : Insn}
    (notRet : i ≠ .ret) (notCall : ∀ nnn, i ≠ .call nnn) (returns : List Nat) :
    contextsAfter pc.toNat returns i = (i.flows pc).map fun q => (q.toNat, returns) := by
  have two : (pc + 2).toNat = pc.toNat + 2 := by
    show (pc.toNat + 2) % 2 ^ 16 = _
    omega
  have four : (pc + 4).toNat = pc.toNat + 4 := by
    show (pc.toNat + 4) % 2 ^ 16 = _
    omega
  cases i with
  | ret => exact absurd rfl notRet
  | call nnn => exact absurd rfl (notCall nnn)
  | jp nnn =>
    have same : (nnn.setWidth 16).toNat = nnn.toNat := by
      rw [BitVec.toNat_setWidth, Nat.mod_eq_of_lt (by omega)]
    simp only [contextsAfter, Insn.flows, List.map_cons, List.map_nil, same]
  | skip c => simp only [contextsAfter, Insn.flows, List.map_cons, List.map_nil, two, four]
  | skipKey x up => simp only [contextsAfter, Insn.flows, List.map_cons, List.map_nil, two, four]
  | jpV0 nnn => rfl
  | _ => simp only [contextsAfter, Insn.flows, List.map_cons, List.map_nil, two]

/-- The addresses `CALL` has put on a stack of some depth. -/
def returnsAt (stack : Nat → Word) (depth : Nat) : List Nat :=
  (List.range depth).map fun k => (stack k).toNat

theorem returnsAt_succ (stack : Nat → Word) (depth : Nat) :
    returnsAt stack (depth + 1) = returnsAt stack depth ++ [(stack depth).toNat] := by
  unfold returnsAt
  rw [List.range_succ, List.map_append, List.map_singleton]

theorem returnsAt_update (stack : Nat → Word) (depth : Nat) (v : Word) :
    returnsAt (Function.update stack depth v) depth = returnsAt stack depth := by
  refine List.map_congr_left fun k inside => congrArg BitVec.toNat ?_
  exact Function.update_of_ne (Nat.ne_of_lt (List.mem_range.mp inside)) v stack

section
variable {E : Type} {P : Platform E}

theorem exec_context {op : Word} {i : Insn} {s t : State E} (decoded : decode op = some i)
    (notBranch : ∀ nnn, i ≠ .jpV0 nnn) (executed : i.exec P op s = (0#32, t))
    (room : s.vm.programCounter.toNat + 4 < 2 ^ 16)
    (depth : 0 ≤ s.vm.stackPointer ∧ s.vm.stackPointer ≤ stackSize) :
    (0 ≤ t.vm.stackPointer ∧ t.vm.stackPointer ≤ stackSize) ∧
      contextAt t.vm ∈ contextsAfter (contextAt s.vm).1 (contextAt s.vm).2 i := by
  have after : t = (i.exec P op s).2 := congrArg Prod.snd executed.symm
  -- Only RET and CALL touch the stack; every other statement keeps the return addresses.
  by_cases ret : i = .ret
  · subst ret
    obtain ⟨positive, stack, pointer, pc⟩ := exec_ret decoded executed
    obtain ⟨k, isDepth⟩ : ∃ k : Nat, s.vm.stackPointer = (k : Int) + 1 :=
      ⟨(s.vm.stackPointer - 1).toNat, by omega⟩
    have before : (contextAt s.vm).2 = returnsAt s.vm.stack k ++ [(s.vm.stack k).toNat] := by
      rw [← returnsAt_succ]
      show returnsAt s.vm.stack s.vm.stackPointer.toNat = _
      rw [isDepth]
      rfl
    have below : (s.vm.stackPointer - 1).toNat = k := by omega
    have here : contextAt t.vm = ((s.vm.stack k).toNat, returnsAt s.vm.stack k) := by
      show (t.vm.programCounter.toNat, returnsAt t.vm.stack t.vm.stackPointer.toNat) = _
      rw [pc, stack, pointer, below]
    refine ⟨by omega, ?_⟩
    rw [here, before, contextsAfter, List.getLast?_append, List.dropLast_concat]
    exact List.mem_singleton.mpr rfl
  by_cases call : ∃ nnn, i = .call nnn
  · obtain ⟨nnn, rfl⟩ := call
    obtain ⟨pointer, stack⟩ := exec_call decoded executed
    obtain ⟨k, isDepth⟩ : ∃ k : Nat, s.vm.stackPointer = (k : Int) :=
      ⟨s.vm.stackPointer.toNat, by omega⟩
    have facts : s.vm.stackPointer < (stackSize : Int) ∧ t.vm.programCounter = nnn.setWidth 16 := by
      simp only [Insn.exec] at executed
      split at executed
      · rename_i space
        cases executed
        exact ⟨space, rfl⟩
      · exact absurd executed (error_fails decoded Insn.noConfusion)
    obtain ⟨space, pc⟩ := facts
    -- The return address the machine pushes is the one analyze writes down.
    have next : (s.vm.programCounter + 2).toNat = s.vm.programCounter.toNat + 2 := by
      show (s.vm.programCounter.toNat + 2) % 2 ^ 16 = _
      omega
    have below : s.vm.stackPointer.toNat = k := by omega
    have above : t.vm.stackPointer.toNat = k + 1 := by omega
    have here : contextAt t.vm =
        (nnn.toNat, returnsAt s.vm.stack k ++ [s.vm.programCounter.toNat + 2]) := by
      show (t.vm.programCounter.toNat, returnsAt t.vm.stack t.vm.stackPointer.toNat) = _
      rw [pc, stack, above, below, returnsAt_succ, returnsAt_update, Function.update_self, next,
        BitVec.toNat_setWidth, Nat.mod_eq_of_lt (by omega)]
    have before : (contextAt s.vm).2 = returnsAt s.vm.stack k := by
      show returnsAt s.vm.stack s.vm.stackPointer.toNat = _
      rw [below]
    refine ⟨by omega, ?_⟩
    rw [here, before, contextsAfter, if_neg]
    · exact List.mem_singleton.mpr rfl
    · have size : maxReturns = stackSize := rfl
      rw [returnsAt, List.length_map, List.length_range]
      omega
  · have notCall : ∀ nnn, i ≠ .call nnn := fun nnn same => call ⟨nnn, same⟩
    obtain ⟨stack, pointer⟩ := exec_stack P op ret notCall s
    rw [← after] at stack pointer
    refine ⟨pointer ▸ depth, ?_⟩
    have flows := exec_flows decoded ret notBranch executed
    show (t.vm.programCounter.toNat, returnsAt t.vm.stack t.vm.stackPointer.toNat) ∈ _
    rw [stack, pointer, show (contextAt s.vm).1 = s.vm.programCounter.toNat from rfl,
      contextsAfter_flows room ret notCall]
    exact List.mem_map.mpr ⟨_, flows, rfl⟩

/-! ## Runs -/

/-- The instruction a machine is about to execute. -/
def insnOf (vm : VM) : Option Insn := decode (opcodeAt vm.memory vm.programCounter)

/-- A step that executes an instruction statement, not `JP V0`, without storing into the
instruction statements and without an effect `analyze` forgets on a constant it holds there. -/
structure Allowed (U : Unicode) (labels : Labels) (statements : List Statement) (vm vm' : VM) :
    Prop where
  statement : (instructionAt statements vm.programCounter.toNat).isSome = true
  notBranch : ∀ nnn, insnOf vm ≠ some (.jpV0 nnn)
  outside : ∀ i, insnOf vm = some i → ∀ a ∈ i.written vm.addr, ¬ InCode statements a.toNat
  plain : ∀ i σ, insnOf vm = some i →
    (states U labels statements).incoming (contextAt vm) = some σ → Plain σ i vm vm'

/-- What holds of every state of a run. -/
structure Tracked (U : Unicode) (labels : Labels) (bytes : List Byte)
    (statements : List Statement) (vm : VM) : Prop where
  intact : CodeIntact statements bytes vm.memory
  depth : 0 ≤ vm.stackPointer ∧ vm.stackPointer ≤ stackSize
  state : inMemory vm.programCounter.toNat = true →
    ∃ σ, (states U labels statements).incoming (contextAt vm) = some σ ∧ Describes σ vm

variable {U : Unicode}

theorem tracked_start (env : E) : Tracked U labels bytes statements
    (⟨VM.boot bytes, env⟩ : State E).vm where
  intact _ _ := rfl
  depth := ⟨Int.le_refl 0, Int.natCast_nonneg stackSize⟩
  state _ := by
    have entered : Worklist.Covered (flow U labels statements) (states U labels statements)
        (contextAt (VM.boot bytes), .initial) := states_entry
    exact entered.holds (fun _ _ above describes => Describes.mono above describes)
      (describes_initial (VM.boot bytes))

theorem Tracked.step (program : Program labels bytes statements)
    (resolves : Resolves U labels statements) {s t : State E} {i : Insn}
    (tracked : Tracked U labels bytes statements s.vm) (isInsn : insnOf s.vm = some i)
    (executed : i.exec P (opcodeAt s.vm.memory s.vm.programCounter) s = (0#32, t))
    (allowed : Allowed U labels statements s.vm t.vm) :
    Tracked U labels bytes statements t.vm := by
  obtain ⟨stmt, found⟩ := Option.isSome_iff_exists.mp allowed.statement
  obtain ⟨i', insn⟩ := program.insnAt found
  obtain ⟨decoded, low, high⟩ := fetch_insn program tracked.intact insn
  obtain rfl : i' = i := Option.some.inj (decoded.symm.trans isInsn)
  have notBranch : ∀ nnn, i' ≠ .jpV0 nnn := fun nnn same =>
    allowed.notBranch nnn (isInsn.trans (congrArg some same))
  obtain ⟨depth, next⟩ := exec_context decoded notBranch executed (by omega) tracked.depth
  refine ⟨tracked.intact.exec (allowed.outside i' isInsn) executed, depth, fun inside => ?_⟩
  have here : inMemory s.vm.programCounter.toNat = true := by
    unfold inMemory entry limit
    simp only [Bool.and_eq_true, decide_eq_true_eq]
    omega
  obtain ⟨σ, known, describes⟩ := tracked.state here
  have covered := states_closed program resolves known insn next inside
  exact covered.holds (fun _ _ above describes => Describes.mono above describes)
    (after_describes describes executed (allowed.plain i' σ isInsn known))

theorem run_tracked (program : Program labels bytes statements)
    (resolves : Resolves U labels statements) {env : E} {n : Nat} {s : State E}
    (run : Run.after (mainStep P) n ⟨VM.boot bytes, env⟩ = some s)
    (allowed : ∀ k < n, ∀ u v, Run.after (mainStep P) k ⟨VM.boot bytes, env⟩ = some u →
      mainStep P u = some v → Allowed U labels statements u.vm v.vm) :
    Tracked U labels bytes statements s.vm := by
  induction n generalizing s with
  | zero =>
    cases run
    exact tracked_start env
  | succ n ih =>
    obtain ⟨u, earlier, last⟩ := Run.after_succ.mp run
    have tracked := ih earlier fun k before => allowed k (Nat.lt_succ_of_lt before)
    obtain ⟨-, stepped⟩ := (mainStep_eq_some P).mp last
    obtain ⟨i, decoded, executed⟩ := blockStep_decodes P stepped
    have isInsn : insnOf u.vm = some i := decoded
    exact @Tracked.step labels bytes statements E P U program resolves
      { u with env := (P.allKeysDown u.env).2 } s i tracked isInsn executed
      (allowed n (Nat.lt_succ_self n) u s earlier last)

end

/-! ## Names -/

/-- A name of a timer or of the key wait is no number, and no label either if none that is
loaded from is given that name. -/
theorem reserved_of {U : Unicode} (addresses : Asm.Addresses (encodeLabels labels))
    {args : List Token}
    (unnamed : ∀ a, ∀ w ∈ [wordDT, wordK], args = [a, w] → labels.lookup w = none) :
    Reserved U labels args := by
  have memory : labels.lookup wordMemory = none := by
    rw [Option.eq_none_iff_forall_ne_some]
    intro value found
    obtain ⟨symbol, inside, name⟩ := labels_lookup found
    have valid := (addresses symbol inside).1
    rw [name] at valid
    cases valid
  have upper (w : Token) (ascii : ∀ c ∈ w, c.toNat < 128) (same : Asm.normalize w = w) :
      upper U w = w := (upper_ascii U ascii).trans same
  have unresolved (w : Token) (ascii : ∀ c ∈ w, c.toNat < 128) (same : Asm.normalize w = w)
      (noLabel : labels.lookup w = none) (noNumber : parseNumber U w = none) :
      resolve U labels w = none := by
    unfold resolve
    rw [upper w ascii same, noLabel]
    exact noNumber
  simp only [Reserved, Asm.loadForms, List.forall_mem_cons, List.not_mem_nil, false_implies,
    implies_true, and_true]
  refine ⟨fun a shape => ?_, fun a shape => ?_, fun a shape => ?_⟩
  · exact unresolved wordDT (by decide) rfl (unnamed a wordDT (by decide) shape)
      (parseNumber_letter U _ (by decide))
  · exact unresolved wordK (by decide) rfl (unnamed a wordK (by decide) shape)
      (parseNumber_letter U _ (by decide))
  · exact unresolved wordMemory (by decide) rfl memory (parseNumber_letter U _ (by decide))

/-! ## The analysis -/

/-- Where the front ends read a text alike, the worklist of `analyze` runs empty, and in every
run of the ROM that it follows each context has a state whose constants are those of the
machine.

It does not follow `JP V0`, and a label `DT` or `K` that is loaded from is a constant to it. -/
theorem analyze_constants (U : Unicode) {text : Text}
    (accepted : Asm.assemble (encode text) = .ok bytes) (same : SameReading U text)
    (parsed : parseSource U text = .ok (statements, labels)) (numbers : SameNumbers U statements)
    (unnamed : ∀ s ∈ statements, ∀ a, ∀ w ∈ [wordDT, wordK], s.args = [a, w] →
      labels.lookup w = none)
    {E : Type} {P : Platform E} {env : E} {n : Nat} {s : State E}
    (run : Run.after (mainStep P) n ⟨VM.boot bytes, env⟩ = some s)
    (allowed : ∀ k < n, ∀ u v, Run.after (mainStep P) k ⟨VM.boot bytes, env⟩ = some u →
      mainStep P u = some v → Allowed U labels statements u.vm v.vm)
    (inside : inMemory s.vm.programCounter.toNat = true) :
    (fixpoint U labels statements).table.work = [] ∧
      ∃ σ, (fixpoint U labels statements).table.incoming (contextAt s.vm) = some σ ∧
        (∀ x : Reg, ∀ v, σ.regs x.toFin = some v → v = ((s.vm.regs x).toNat : Int)) ∧
        ∀ v, σ.i = some v → 0 ≤ v → v = (s.vm.addr.toNat : Int) := by
  have program := program_of_accepted accepted same parsed
  have resolves : Resolves U labels statements :=
    ⟨numbers, fun s here => reserved_of program.addresses (unnamed s here)⟩
  have tracked := run_tracked program resolves run allowed
  obtain ⟨σ, known, describes⟩ := tracked.state inside
  exact ⟨states_empty program resolves, σ, known, describes.regs, describes.addr⟩

end

/-- A constant and an idle loop. -/
def loadsFive : Text := "LD V1, 5\nL: JP L".toList

def loadsFiveStatements : List Statement :=
  [⟨1, none, some ['L', 'D'], [['V', '1'], ['5']], 0x200, 2⟩,
    ⟨2, some ['L'], some ['J', 'P'], [['L']], 0x202, 2⟩]

theorem analyze_constants_loadsFive :
    ∃ s, Run.after (mainStep (tapePlatform quietTape fun _ => 0#32)) 1
        ⟨VM.boot [0x61, 0x05, 0x12, 0x02], .start⟩ = some s ∧
      (fixpoint ascii [(['L'], 0x202)] loadsFiveStatements).table.work = [] ∧
      ∃ σ, (fixpoint ascii [(['L'], 0x202)] loadsFiveStatements).table.incoming (contextAt s.vm) =
          some σ ∧
        (∀ x : Reg, ∀ v, σ.regs x.toFin = some v → v = ((s.vm.regs x).toNat : Int)) ∧
        ∀ v, σ.i = some v → 0 ≤ v → v = (s.vm.addr.toNat : Int) := by
  have accepted : Asm.assemble (encode loadsFive) = .ok [0x61, 0x05, 0x12, 0x02] := by
    decide +kernel
  have parsed : parseSource ascii loadsFive = .ok (loadsFiveStatements, [(['L'], 0x202)]) := by
    decide +kernel
  have read : sourceItems ascii loadsFive = [⟨none, [['L', 'D'], ['V', '1'], ['5']]⟩,
      ⟨some ['L'], []⟩, ⟨none, [['J', 'P'], ['L']]⟩] := by
    decide +kernel
  have same : SameReading ascii loadsFive := by
    refine ⟨⟨[⟨none, [['L', 'D'], ['V', '1'], ['5']]⟩, ⟨some ['L'], [['J', 'P'], ['L']]⟩], ?_, ?_⟩,
      ?_, ?_⟩
    · exact .cons rfl (.cons rfl .nil)
    · rw [read]
      decide
    · rw [read]
      intro a here
      simp [opOrg] at here
    · rw [read]
      decide
  have numbers : SameNumbers ascii loadsFiveStatements := by
    intro s here _ a operand n number
    simp only [loadsFiveStatements, List.mem_cons, List.not_mem_nil, or_false] at here
    obtain rfl | rfl := here
    · obtain rfl | rfl : a = ['V', '1'] ∨ a = ['5'] := by simpa using operand
      · cases number
      · cases number
        rfl
    · obtain rfl : a = ['L'] := by simpa using operand
      cases number
  have unnamed : ∀ s ∈ loadsFiveStatements, ∀ a, ∀ w ∈ [wordDT, wordK], s.args = [a, w] →
      [(['L'], 0x202)].lookup w = none := by
    intro _ _ _ w word _
    simp only [List.mem_cons, List.not_mem_nil, or_false] at word
    obtain rfl | rfl := word <;> rfl
  refine ⟨_, rfl, ?_⟩
  refine @analyze_constants _ _ _ ascii loadsFive accepted same parsed numbers unnamed
    _ (tapePlatform quietTape fun _ => 0#32) .start 1 _ rfl ?_ (by decide)
  intro k small u v reached stepped
  interval_cases k
  cases reached
  cases stepped
  refine ⟨by decide, ?_, ?_, ?_⟩
  · intro z same
    cases same
  · intro i decoded a inside
    cases decoded
    cases inside
  · intro i σ decoded _
    cases decoded
    refine ⟨?_, ?_, ?_, ?_⟩
    · intro y other _
      exact Function.update_of_ne (fun same => other (congrArg some same.symm)) ..
    · intro y same
      cases same
    · intro x same
      cases same
    · intro x same
      cases same

/-- On this run `analyze` has no state for a context or a wrong one, although it executes
instruction statements only and stores into none. -/
def misled (text : Text) (n : Nat) : Bool :=
  match Asm.assemble (encode text), parseSource ascii text with
  | .ok bytes, .ok (statements, labels) =>
    let step (s : State Cursor) :=
      if (instructionAt statements s.vm.programCounter.toNat).isSome &&
          (insnOf s.vm).all fun i => (i.written s.vm.addr).all fun a => !InCode statements a.toNat
      then mainStep (tapePlatform quietTape fun _ => 0#32) s else none
    (Run.after step n (interpreterStart bytes)).elim false fun s =>
      (instructionAt statements s.vm.programCounter.toNat).isSome &&
      match (fixpoint ascii labels statements).table.incoming (contextAt s.vm) with
      | none => true
      | some σ =>
        ((List.finRange 16).any fun x =>
          (σ.regs x).any fun v => v != ((s.vm.regs (BitVec.ofFin x)).toNat : Int)) ||
        σ.i.any fun v => 0 ≤ v && v != (s.vm.addr.toNat : Int)
  | _, _ => false

/-- In this order: `JP V0`; the flags of a sum; the flags as the sum itself; a register below
the one `LD Vx, [I]` names; an offset to a digit; a label named like the timer; an octal number
with a sign; a comment sign behind a word. -/
theorem analyze_misled :
    [("LD V0, 4\nJP V0, 0x200\nL: JP L", 2),
      ("LD VF, 7\nLD V1, 255\nADD V1, V1\nL: JP L", 3),
      ("LD VF, 1\nADD VF, VF\nL: JP L", 2),
      ("LD I, d\nLD V0, 1\nLD V1, [I]\nL: JP L\nd: .byte 9, 9", 3),
      ("LD V0, 1\nLD F, V0\nADD I, V0\nL: JP L", 3),
      ("DT: LD V1, DT\nL: JP L", 1),
      ("LD V1, +010\nL: JP L", 1),
      ("LD I, d\nL: JP L\n.byte 1;2\nd: .byte 0", 1)].all
      (fun r => misled r.1.toList r.2) = true := by
  decide +kernel

end ChipEight.Opt
