import ChipEight.Machine.Scan

/-! Which bytes of memory an instruction changes. -/

set_option autoImplicit false

namespace ChipEight

/-- The bytes `[a, a + n)`, each address wrapped. -/
def span (a : Word) (n : Nat) : List Addr :=
  (List.range n).map fun i => mask (a + BitVec.ofNat 16 i)

/-- The bytes an instruction stores into when `addr` is the address register. -/
def Insn.written (addr : Word) : Insn → List Addr
  | .bcd _ => span addr 3
  | .save x => span addr (x.toNat + 1)
  | _ => []

/-- The bytes an instruction reads as data. -/
def Insn.read (addr : Word) : Insn → List Addr
  | .drw _ _ n => span addr n.toNat
  | .restore x => span addr (x.toNat + 1)
  | _ => []

/-! ## What the stores change -/

theorem storeAt_memory {vm : VM} {i : Nat} {v : Byte} {addr : Word} (here : vm.addr = addr)
    {a : Addr} (away : a ≠ mask (addr + BitVec.ofNat 16 i)) :
    (vm.storeAt i v).memory a = vm.memory a := by
  subst here
  exact Function.update_of_ne away _ _

theorem mem_span {a : Word} {n : Nat} {byte : Addr} :
    byte ∈ span a n ↔ ∃ i < n, mask (a + BitVec.ofNat 16 i) = byte := by
  simp [span]

theorem bcdStores_memory (x : Reg) (vm : VM) {a : Addr} (away : a ∉ span vm.addr 3) :
    (Interpreter.bcdStores x vm).memory a = vm.memory a := by
  have apart : ∀ i < 3, a ≠ mask (vm.addr + BitVec.ofNat 16 i) := by
    intro i small same
    exact away (mem_span.mpr ⟨i, small, same.symm⟩)
  simp only [Interpreter.bcdStores]
  refine (storeAt_memory (by rfl) (apart 2 (by decide))).trans ?_
  refine (storeAt_memory (by rfl) (apart 1 (by decide))).trans ?_
  exact storeAt_memory (by rfl) (apart 0 (by decide))

theorem saveLoop_memory (x : Reg) (vm : VM) {a : Addr}
    (away : a ∉ span vm.addr (x.toNat + 1)) :
    (Interpreter.saveLoop x vm).memory a = vm.memory a := by
  have apart : ∀ i ∈ List.range (x.toNat + 1), a ≠ mask (vm.addr + BitVec.ofNat 16 i) := by
    intro i small same
    exact away (mem_span.mpr ⟨i, List.mem_range.mp small, same.symm⟩)
  unfold Interpreter.saveLoop
  revert apart
  generalize List.range (x.toNat + 1) = is
  generalize here : vm.addr = addr
  intro apart
  clear away
  -- The loop leaves the address register alone, so every store is one of the span.
  induction is generalizing vm with
  | nil => rfl
  | cons i is ih =>
    rw [List.foldl_cons]
    refine (ih _ (by exact here) fun j mem => apart j (List.mem_cons_of_mem i mem)).trans ?_
    exact storeAt_memory here (apart i List.mem_cons_self)

theorem saveLoop_other {α : Type} (part : VM → α)
    (blind : ∀ vm i v, part (vm.storeAt i v) = part vm) (x : Reg) (vm : VM) :
    part (Interpreter.saveLoop x vm) = part vm := by
  unfold Interpreter.saveLoop
  generalize List.range (x.toNat + 1) = is
  induction is generalizing vm with
  | nil => rfl
  | cons i is ih =>
    rw [List.foldl_cons, ih]
    exact blind vm i (vm.regs (BitVec.ofNat 4 i))

theorem restoreLoop_other {α : Type} (part : VM → α)
    (blind : ∀ vm x v, part (vm.setReg x v) = part vm) (x : Reg) (vm : VM) :
    part (Interpreter.restoreLoop x vm) = part vm := by
  unfold Interpreter.restoreLoop
  generalize List.range (x.toNat + 1) = is
  induction is generalizing vm with
  | nil => rfl
  | cons i is ih =>
    rw [List.foldl_cons, ih]
    exact blind vm (BitVec.ofNat 4 i) (vm.memAt i)

theorem restoreLoop_memory (x : Reg) (vm : VM) :
    (Interpreter.restoreLoop x vm).memory = vm.memory :=
  restoreLoop_other VM.memory (fun _ _ _ => rfl) x vm

theorem scanKeys_memory {E : Type} (P : Platform E) (x : Reg) (keys : BitVec 32) (s : State E) :
    (Interpreter.scanKeys P x keys s).vm.memory = s.vm.memory :=
  scanKeys_other P VM.memory (fun _ _ _ => rfl) x keys s

theorem restoreLoop_setPc (x : Reg) (vm : VM) (pc : Word) :
    Interpreter.restoreLoop x (vm.setPc pc) = (Interpreter.restoreLoop x vm).setPc pc := by
  unfold Interpreter.restoreLoop
  generalize List.range (x.toNat + 1) = is
  induction is generalizing vm with
  | nil => rfl
  | cons i is ih => exact ih (vm.setReg (BitVec.ofNat 4 i) (vm.memAt i))

theorem restoreLoop_programCounter (x : Reg) (vm : VM) :
    (Interpreter.restoreLoop x vm).programCounter = vm.programCounter :=
  restoreLoop_other VM.programCounter (fun _ _ _ => rfl) x vm

theorem saveLoop_programCounter (x : Reg) (vm : VM) :
    (Interpreter.saveLoop x vm).programCounter = vm.programCounter :=
  saveLoop_other VM.programCounter (fun _ _ _ => rfl) x vm

theorem apply_programCounter (o : AluOp) (x y : Reg) (vm : VM) :
    (o.apply x y vm).programCounter = vm.programCounter := by
  cases o <;> rfl

theorem exec_memory {E : Type} (P : Platform E) (op : Word) (i : Insn) (s : State E) {a : Addr}
    (away : a ∉ i.written s.vm.addr) :
    (i.exec P op s).2.vm.memory a = s.vm.memory a := by
  cases i with
  | bcd x => exact bcdStores_memory x s.vm away
  | save x => exact saveLoop_memory x s.vm away
  | restore x => exact congrFun (restoreLoop_memory x s.vm) a
  | ldKey x =>
    have scanned := scanKeys_memory P x (P.awaitKeys s.env).1 { s with env := (P.awaitKeys s.env).2 }
    simp only [Insn.exec]
    split <;> exact congrFun scanned a
  | ret =>
    simp only [Insn.exec, Interpreter.retern]
    split <;> rfl
  | call nnn =>
    simp only [Insn.exec]
    split <;> rfl
  | skip c =>
    simp only [Insn.exec, Interpreter.skipIf]
    split <;> rfl
  | skipKey x up =>
    simp only [Insn.exec]
    split <;> rfl
  | alu o x y => cases o <;> rfl
  | _ => rfl

/-! ## What an instruction depends on -/

theorem storeAt_agrees {vm vm' : VM} (same : vm'.addr = vm.addr) {a : Addr} {i : Nat} (v : Byte)
    (agree : vm'.memory a = vm.memory a ∨ a = mask (vm.addr + BitVec.ofNat 16 i)) :
    (vm'.storeAt i v).memory a = (vm.storeAt i v).memory a := by
  unfold VM.storeAt
  rw [same]
  change Function.update _ _ _ a = Function.update _ _ _ a
  by_cases here : a = mask (vm.addr + BitVec.ofNat 16 i)
  · rw [here, Function.update_self, Function.update_self]
  · rw [Function.update_of_ne here, Function.update_of_ne here]
    exact agree.resolve_right here

theorem saveLoop_agrees (x : Reg) {vm vm' : VM} (regs : vm'.regs = vm.regs)
    (same : vm'.addr = vm.addr) {a : Addr} (inside : a ∈ span vm.addr (x.toNat + 1)) :
    (Interpreter.saveLoop x vm').memory a = (Interpreter.saveLoop x vm).memory a := by
  obtain ⟨i, small, here⟩ := mem_span.mp inside
  have member : i ∈ List.range (x.toNat + 1) := List.mem_range.mpr small
  have goal : vm'.memory a = vm.memory a ∨ ∃ i ∈ List.range (x.toNat + 1),
      mask (vm.addr + BitVec.ofNat 16 i) = a := .inr ⟨i, member, here⟩
  clear here member small inside
  unfold Interpreter.saveLoop
  generalize List.range (x.toNat + 1) = is at goal ⊢
  -- Either the byte already agrees or a later store of the loop writes it.
  induction is generalizing vm vm' with
  | nil =>
    obtain agree | ⟨i, member, -⟩ := goal
    · exact agree
    · cases member
  | cons i is ih =>
    rw [List.foldl_cons, List.foldl_cons, regs]
    apply ih (by exact regs) (by exact same)
    obtain agree | ⟨j, member, here⟩ := goal
    · exact .inl (storeAt_agrees same _ (.inl agree))
    · obtain rfl | later := List.mem_cons.mp member
      · exact .inl (storeAt_agrees same _ (.inr here.symm))
      · exact .inr ⟨j, later, here⟩

theorem bcdStores_agrees (x : Reg) {vm vm' : VM} (regs : vm'.regs = vm.regs)
    (same : vm'.addr = vm.addr) {a : Addr} (inside : a ∈ span vm.addr 3) :
    (Interpreter.bcdStores x vm').memory a = (Interpreter.bcdStores x vm).memory a := by
  obtain ⟨i, small, here⟩ := mem_span.mp inside
  simp only [Interpreter.bcdStores, regs]
  obtain rfl | rfl | rfl : i = 0 ∨ i = 1 ∨ i = 2 := by omega
  · apply storeAt_agrees (by exact same)
    left
    apply storeAt_agrees (by exact same)
    left
    exact storeAt_agrees same _ (.inr here.symm)
  · apply storeAt_agrees (by exact same)
    left
    exact storeAt_agrees (by exact same) _ (.inr here.symm)
  · exact storeAt_agrees (by exact same) _ (.inr here.symm)

/-- The machine with another memory and another stack. -/
def VM.graft (vm : VM) (memory : Memory) (stack : Nat → Word) (stackPointer : Int) : VM :=
  { vm with memory := memory, stack := stack, stackPointer := stackPointer }

theorem restoreLoop_graft (x : Reg) (vm : VM) (memory : Memory) (stack : Nat → Word)
    (stackPointer : Int) (reads : ∀ a ∈ span vm.addr (x.toNat + 1), memory a = vm.memory a) :
    Interpreter.restoreLoop x (vm.graft memory stack stackPointer) =
      (Interpreter.restoreLoop x vm).graft memory stack stackPointer := by
  have byte : ∀ i ∈ List.range (x.toNat + 1),
      memory (mask (vm.addr + BitVec.ofNat 16 i)) = vm.memAt i := by
    intro i small
    exact reads _ (mem_span.mpr ⟨i, List.mem_range.mp small, rfl⟩)
  clear reads
  unfold Interpreter.restoreLoop
  generalize List.range (x.toNat + 1) = is at byte ⊢
  induction is generalizing vm with
  | nil => rfl
  | cons i is ih =>
    rw [List.foldl_cons, List.foldl_cons, ← ih]
    · exact congrArg (fun v => List.foldl _ ((vm.setReg _ v).graft memory stack stackPointer) is)
        (byte i List.mem_cons_self)
    · intro j later
      exact byte j (List.mem_cons_of_mem i later)

theorem saveLoop_graft (x : Reg) (vm : VM) (memory : Memory) (stack : Nat → Word)
    (stackPointer : Int) :
    Interpreter.saveLoop x (vm.graft memory stack stackPointer) =
      (Interpreter.saveLoop x vm).graft
        (Interpreter.saveLoop x (vm.graft memory stack stackPointer)).memory stack
        stackPointer := by
  unfold Interpreter.saveLoop
  generalize List.range (x.toNat + 1) = is
  induction is generalizing vm memory with
  | nil => rfl
  | cons i is ih =>
    rw [List.foldl_cons, List.foldl_cons]
    exact ih (vm.storeAt i (vm.regs (BitVec.ofNat 4 i)))
      (Function.update memory (mask (vm.addr + BitVec.ofNat 16 i)) (vm.regs (BitVec.ofNat 4 i)))

theorem scanKeys_graft {E : Type} (P : Platform E) (x : Reg) (keys : BitVec 32) (s : State E)
    (memory : Memory) (stack : Nat → Word) (stackPointer : Int) :
    Interpreter.scanKeys P x keys ⟨s.vm.graft memory stack stackPointer, s.env⟩ =
      ⟨(Interpreter.scanKeys P x keys s).vm.graft memory stack stackPointer,
        (Interpreter.scanKeys P x keys s).env⟩ := by
  unfold Interpreter.scanKeys
  generalize List.range 16 = is
  induction is generalizing s with
  | nil => rfl
  | cons i is ih =>
    rw [List.foldl_cons, List.foldl_cons, ← ih]
    congr 1
    unfold Interpreter.scanKey
    split <;> rfl

theorem drawSprite_graft (x y n : Reg) (vm : VM) (memory : Memory) (stack : Nat → Word)
    (stackPointer : Int) (reads : ∀ a ∈ span vm.addr n.toNat, memory a = vm.memory a) :
    (vm.graft memory stack stackPointer).drawSprite x y n =
      (vm.drawSprite x y n).graft memory stack stackPointer := by
  have sprite : (List.range n.toNat).map (vm.graft memory stack stackPointer).memAt =
      (List.range n.toNat).map vm.memAt := by
    apply List.map_congr_left
    intro i small
    exact reads _ (mem_span.mpr ⟨i, List.mem_range.mp small, rfl⟩)
  unfold VM.drawSprite
  rw [sprite]
  rfl

/-- An instruction that leaves the stack alone, as far as it reads memory at all, does
the same on another memory and another stack. -/
theorem exec_graft {E : Type} (P : Platform E) (op : Word) {i : Insn} (notRet : i ≠ .ret)
    (notCall : ∀ nnn, i ≠ .call nnn) (s : State E) (memory : Memory) (stack : Nat → Word)
    (stackPointer : Int) (reads : ∀ a ∈ i.read s.vm.addr, memory a = s.vm.memory a) :
    ∃ memory', i.exec P op ⟨s.vm.graft memory stack stackPointer, s.env⟩ =
        ((i.exec P op s).1,
          ⟨(i.exec P op s).2.vm.graft memory' stack stackPointer, (i.exec P op s).2.env⟩) ∧
      (∀ a ∈ i.written s.vm.addr, memory' a = (i.exec P op s).2.vm.memory a) ∧
      ∀ a ∉ i.written s.vm.addr, memory' a = memory a := by
  cases i with
  | ret => exact absurd rfl notRet
  | call nnn => exact absurd rfl (notCall nnn)
  -- Only the two stores change the memory that is put in.
  | bcd x =>
    refine ⟨(Interpreter.bcdStores x (s.vm.graft memory stack stackPointer)).memory, rfl, ?_, ?_⟩
    · intro a inside
      have regs : (s.vm.graft memory stack stackPointer).regs = s.vm.regs := rfl
      exact bcdStores_agrees x regs rfl inside
    · intro a away
      exact bcdStores_memory x (s.vm.graft memory stack stackPointer) away
  | save x =>
    refine ⟨(Interpreter.saveLoop x (s.vm.graft memory stack stackPointer)).memory, ?_, ?_, ?_⟩
    · simp only [Insn.exec, Interpreter.stepVM, Interpreter.step, Interpreter.advance]
      rw [saveLoop_graft]
      rfl
    · intro a inside
      have regs : (s.vm.graft memory stack stackPointer).regs = s.vm.regs := rfl
      exact saveLoop_agrees x regs rfl inside
    · intro a away
      exact saveLoop_memory x (s.vm.graft memory stack stackPointer) away
  | restore x =>
    refine ⟨memory, ?_, (fun a inside => absurd inside List.not_mem_nil), fun a _ => rfl⟩
    simp only [Insn.exec, Interpreter.stepVM, Interpreter.step, Interpreter.advance,
      restoreLoop_graft x s.vm memory stack stackPointer reads]
    rfl
  | drw x y n =>
    refine ⟨memory, ?_, (fun a inside => absurd inside List.not_mem_nil), fun a _ => rfl⟩
    simp only [Insn.exec, Interpreter.step, Interpreter.advance,
      drawSprite_graft x y n s.vm memory stack stackPointer reads]
    rfl
  | ldKey x =>
    refine ⟨memory, ?_, (fun a inside => absurd inside List.not_mem_nil), fun a _ => rfl⟩
    simp only [Insn.exec]
    have scanned := scanKeys_graft P x (P.awaitKeys s.env).1
      { s with env := (P.awaitKeys s.env).2 } memory stack stackPointer
    dsimp only at scanned
    rw [scanned]
    split <;> rfl
  | skip c =>
    refine ⟨memory, ?_, (fun a inside => absurd inside List.not_mem_nil), fun a _ => rfl⟩
    have same : c.holds (s.vm.graft memory stack stackPointer) = c.holds s.vm := by
      cases c <;> rfl
    simp only [Insn.exec, Interpreter.skipIf, same]
    split <;> rfl
  | skipKey x up =>
    refine ⟨memory, ?_, (fun a inside => absurd inside List.not_mem_nil), fun a _ => rfl⟩
    simp only [Insn.exec]
    split
    · rename_i pressed
      rw [if_pos (by exact pressed)]
      rfl
    · rename_i pressed
      rw [if_neg (by exact pressed)]
      rfl
  | alu o x y =>
    refine ⟨memory, ?_, (fun a inside => absurd inside List.not_mem_nil), fun a _ => rfl⟩
    cases o <;> rfl
  | _ => exact ⟨memory, rfl, (fun a inside => absurd inside List.not_mem_nil), fun a _ => rfl⟩

theorem exec_stack {E : Type} (P : Platform E) (op : Word) {i : Insn} (notRet : i ≠ .ret)
    (notCall : ∀ nnn, i ≠ .call nnn) (s : State E) :
    (i.exec P op s).2.vm.stack = s.vm.stack ∧
      (i.exec P op s).2.vm.stackPointer = s.vm.stackPointer := by
  -- Grafting the machine's own stack changes nothing.
  obtain ⟨memory', executed, -, -⟩ := exec_graft P op notRet notCall s s.vm.memory s.vm.stack
    s.vm.stackPointer fun a _ => rfl
  have own : i.exec P op s = _ := executed
  rw [own]
  exact ⟨rfl, rfl⟩

end ChipEight
