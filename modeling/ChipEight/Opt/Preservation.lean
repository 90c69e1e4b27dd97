import ChipEight.Opt.Patching

/-! `optimize_peepholes` and the run of a program.

In every run whose steps are fine, the optimized program shows what the program shows, and
nothing else.
-/

set_option autoImplicit false

namespace ChipEight.Opt

open Asm (Text Token Mnemonic Layout Symbol)

/-- What a ROM shows in the first steps of its run, in order. -/
def shown (P : Platform Cursor) (rom : List Byte) (n : Nat) : List (Observed × (Reg → Byte)) :=
  Run.seen (blockStep P) (fun s => s.vm.shows) n (interpreterStart rom)

/-- One ROM shows all that the other shows, and nothing else. -/
def SameShown (P : Platform Cursor) (rom rom' : List Byte) : Prop :=
  (∀ n, ∃ m, shown P rom' m = shown P rom n) ∧ ∀ m, ∃ n, shown P rom' m = shown P rom n

/-- The patch of the program with symbolic addresses. -/
def optimizerPatch (U : Unicode) (statements : List Statement) (labels : Labels) (a : Analysis)
    (bytes : List Byte) : Patch :=
  patchOf U (symbolize U statements labels).2
    (unpinned U (symbolize U statements labels).1 (symbolize U statements labels).2 a)
    (symbolize U statements labels).1 bytes

/-- The first steps of the run of a ROM are fine. -/
def FineUpTo (tape : Tape) (undefinedShift : Byte → BitVec 32) (p : Patch) (rom : List Byte)
    (n : Nat) : Prop :=
  ∀ k < n, ∀ c, Run.after (tracedStep tape undefinedShift p) k ⟨interpreterStart rom, .start⟩ =
    some c → ∃ i, Fine p rom c.ghost c.state.vm i

section
variable {U : Unicode} {text : Text} {statements out : List Statement} {labels : Labels}
  {changes : List Change} {layout layout' : Layout} {bytes bytes' : List Byte} {a : Analysis}

theorem payloadEnd_le {s : Statement} (here : s ∈ statements) :
    s.pc + s.size ≤ payloadEnd statements := by
  have most : ∀ (statements : List Statement) (m : Nat),
      m ≤ statements.foldl (fun m s => max m (s.pc + s.size)) m := by
    intro statements
    induction statements with
    | nil => exact fun m => Nat.le_refl m
    | cons r rest ih => exact fun m => Nat.le_trans (Nat.le_max_left _ _) (ih _)
  unfold payloadEnd
  generalize entry = m
  induction statements generalizing m with
  | nil => cases here
  | cons r rest ih =>
    obtain rfl | later := List.mem_cons.mp here
    · exact Nat.le_trans (Nat.le_max_right _ _) (most rest _)
    · exact ih later _

theorem forall₂_left {α β : Type} {P : α → β → Prop} {xs : List α} {ys : List β}
    (pairs : List.Forall₂ P xs ys) {y : β} (here : y ∈ ys) : ∃ x ∈ xs, P x y := by
  induction pairs with
  | nil => cases here
  | @cons x' y' _ _ first _ ih =>
    obtain rfl | later := List.mem_cons.mp here
    · exact ⟨x', List.mem_cons_self, first⟩
    · obtain ⟨x, inside, related⟩ := ih later
      exact ⟨x, List.mem_cons_of_mem _ inside, related⟩

theorem symbolize_listed (parsed : parseSource U text = .ok (statements, labels))
    (resolved : Resolved (generated U statements labels) labels (symbolize U statements labels).1)
    {name : Token} {v : Nat} (anchored : Anchored (symbolize U statements labels).1 name v) :
    (name, v) ∈ (symbolize U statements labels).2 := by
  obtain ⟨q, here, label, rfl⟩ := anchored
  exact symbolizeFrom_listed resolved ⟨resolved.labelled, fun _ here => here⟩
    (parseSource_listed parsed).labels here label

theorem symbolize_copies
    (resolved : Resolved (generated U statements labels) labels (symbolize U statements labels).1)
    {q : Statement} (here : q ∈ (symbolize U statements labels).1)
    (isInsn : isInstruction q = true) :
    ∃ s ∈ statements,
      Copy U (generated U statements labels) labels (symbolize U statements labels).1 s q := by
  have copies := @symbolizeFrom_copies U _ labels _ labels statements resolved
    ⟨resolved.labelled, fun _ here => here⟩ Option.isSome rfl
  obtain ⟨op, isOp, -⟩ := isInstruction_some isInsn
  have some : q.op.isSome = true := Option.isSome_of_eq_some isOp
  obtain ⟨s, inside, copy⟩ := forall₂_left copies (List.mem_filter.mpr ⟨here, some⟩)
  exact ⟨s, (List.mem_filter.mp inside).1, copy⟩

theorem optimized_of (accepted : Asm.assemble (encode text) = .ok bytes) (same : SameReading U text)
    (parsed : parseSource U text = .ok (statements, labels)) (numbers : SameNumbers U statements)
    (rewritten : Rewritten U statements out labels a layout' bytes') :
    ∃ layout, Optimized U labels (symbolize U statements labels).2 (generated U statements labels)
      (unpinned U (symbolize U statements labels).1 (symbolize U statements labels).2 a)
      statements (symbolize U statements labels).1 layout layout' bytes bytes' := by
  obtain ⟨statements', labels', layout, parsed', -, named, parses, -, assembles⟩ :=
    parseSource_same U accepted same
  cases parsed.symm.trans parsed'
  have program := program_of_accepted accepted same parsed
  have resolved := rewritten.resolved
  obtain ⟨stop, follows, follows'⟩ := rewritten.follows
  refine ⟨layout, ?_⟩
  -- Each field from where it was established: the source, the symbolization or the rewrite.
  constructor
  case printed => exact rewritten.printed
  case printed' => exact symbolize_printed rewritten.printed
  case follows => exact ⟨stop, follows, follows'⟩
  case relaid => exact rewritten.shape ▸ rewritten.relaid
  case original =>
    unfold Assembled
    rw [parses.items]
    exact assembles
  case optimized => exact rewritten.shape ▸ rewritten.assembled
  case copies => exact fun q here isInsn => symbolize_copies resolved here isInsn
  case numbers => exact numbers
  case resolves =>
    intro s here isInsn b operand n known
    rw [← named] at known
    exact program.resolve numbers here isInsn operand known
  case anchors =>
    intro symbol here
    rw [← named] at here
    obtain ⟨r, inside, rfl⟩ := List.mem_map.mp here
    exact ⟨r.1, rfl, resolved.labelled r inside⟩
  case guards =>
    intro name v anchored q _ same
    have listed := symbolize_listed parsed resolved anchored
    apply protected_kept
    rw [same]
    exact List.mem_append_left _ (List.mem_cons_of_mem _ (List.mem_map_of_mem listed))
  case enters =>
    intro q _ same
    apply protected_kept
    rw [same]
    exact List.mem_append_left _ List.mem_cons_self
  case skips =>
    intro k j m q t r here skip there near low high between
    exact skip_window follows' here skip there near low high between
  case above =>
    intro v here
    obtain ⟨-, s, inside, rfl⟩ := (mem_generated follows).mp here
    exact follows.above s inside
  case numeric =>
    rintro s here reference numeric v isTarget ⟨q, inside, isInsn, rfl⟩
    obtain ⟨r, isStatement, copy⟩ := symbolize_copies resolved inside isInsn
    obtain ⟨op, pc, size, -⟩ := copy.fields
    have two : q.size = 2 := size_of_instruction follows' inside isInsn
    have ends := payloadEnd_le isStatement
    refine (mem_generated follows).mpr ⟨?_, r, isStatement, pc.symm⟩
    unfold namedByNumber
    rw [Bool.and_eq_true, decide_eq_true_eq, List.any_eq_true]
    refine ⟨by omega, s, here, ?_⟩
    rw [reference, numeric, isTarget]
    exact beq_self_eq_true _

theorem patched_of (accepted : Asm.assemble (encode text) = .ok bytes) (same : SameReading U text)
    (parsed : parseSource U text = .ok (statements, labels)) (numbers : SameNumbers U statements)
    (rewritten : Rewritten U statements out labels a layout' bytes') :
    Patched (optimizerPatch U statements labels a bytes) bytes bytes' := by
  obtain ⟨layout, optimized⟩ := optimized_of accepted same parsed numbers rewritten
  exact optimized.patched

/-! ## Runs -/

variable {tape : Tape} {undefinedShift : Byte → BitVec 32}

theorem after_traced (p : Patch) (n : Nat) (c : Traced) :
    Run.after (blockStep (tapePlatform tape undefinedShift)) n c.state =
      (Run.after (tracedStep tape undefinedShift p) n c).map Traced.state := by
  refine Run.after_map (fun c => ?_) n c
  unfold tracedStep
  cases blockStep (tapePlatform tape undefinedShift) c.state <;> rfl

theorem shown_traced (p : Patch) (rom : List Byte) (n : Nat) :
    shown (tapePlatform tape undefinedShift) rom n =
      Run.seen (tracedStep tape undefinedShift p) (fun c => c.state.vm.shows) n
        ⟨interpreterStart rom, .start⟩ := by
  refine @Run.seen_map Traced (State Cursor) _ (tracedStep tape undefinedShift p) _ Traced.state
    (fun s => s.vm.shows) (fun c => ?_) n ⟨interpreterStart rom, .start⟩
  unfold tracedStep
  cases blockStep (tapePlatform tape undefinedShift) c.state <;> rfl

theorem traced_run (p : Patch) {rom : List Byte} {n : Nat} {s : State Cursor}
    (run : Run.after (blockStep (tapePlatform tape undefinedShift)) n (interpreterStart rom) =
      some s) :
    ∃ c, Run.after (tracedStep tape undefinedShift p) n ⟨interpreterStart rom, .start⟩ = some c := by
  have same := @after_traced tape undefinedShift p n ⟨interpreterStart rom, .start⟩
  rw [run] at same
  obtain ⟨c, run', -⟩ := Option.map_eq_some_iff.mp same.symm
  exact ⟨c, run'⟩

theorem Patched.shows {p : Patch} (patched : Patched p bytes bytes')
    (answers : Answers (tapePlatform tape undefinedShift)) {n : Nat} {s : State Cursor}
    (run : Run.after (blockStep (tapePlatform tape undefinedShift)) n (interpreterStart bytes) =
      some s) (fine : FineUpTo tape undefinedShift p bytes n) :
    ∃ m t, Run.after (blockStep (tapePlatform tape undefinedShift)) m (interpreterStart bytes') =
        some t ∧
      shown (tapePlatform tape undefinedShift) bytes' m =
        shown (tapePlatform tape undefinedShift) bytes n := by
  obtain ⟨c, run'⟩ := traced_run p run
  obtain ⟨m, t, reached, -, same⟩ := (patched.ranked answers).run patched.rel_start run' fine
  refine ⟨m, t, reached, ?_⟩
  rw [shown_traced p bytes]
  exact same

theorem Patched.sameShown {p : Patch} (patched : Patched p bytes bytes')
    (answers : Answers (tapePlatform tape undefinedShift))
    (goes : ∀ n, ∃ s, Run.after (blockStep (tapePlatform tape undefinedShift)) n
      (interpreterStart bytes) = some s ∧ FineUpTo tape undefinedShift p bytes n) :
    (∀ m, ∃ t, Run.after (blockStep (tapePlatform tape undefinedShift)) m
      (interpreterStart bytes') = some t) ∧
    SameShown (tapePlatform tape undefinedShift) bytes bytes' := by
  have matched := (patched.ranked answers).goes patched.rel_start fun n => by
    obtain ⟨s, run, -⟩ := goes n
    obtain ⟨-, -, fine⟩ := goes (n + 1)
    obtain ⟨c, run'⟩ := traced_run p run
    exact ⟨c, run', fine n (Nat.lt_succ_self n) c run'⟩
  refine ⟨fun m => ?_, fun n => ?_, fun m => ?_⟩
  · obtain ⟨n, c, t, -, reached, -⟩ := matched m
    exact ⟨t, reached⟩
  · obtain ⟨s, run, fine⟩ := goes n
    obtain ⟨m, t, -, same⟩ := patched.shows answers run fine
    exact ⟨m, same⟩
  · obtain ⟨n, c, t, -, -, -, same⟩ := matched m
    refine ⟨n, ?_⟩
    rw [shown_traced p bytes]
    exact same

/-- In a run whose steps are fine the optimized program shows what the program shows, and if
the run goes on for ever it shows nothing else. -/
theorem optimize_preserves (accepted : Asm.assemble (encode text) = .ok bytes)
    (same : SameReading U text) (parsed : parseSource U text = .ok (statements, labels))
    (numbers : SameNumbers U statements)
    (returned : optimizePeepholes U statements labels = .ok (out, changes))
    (optimized : Assembled out layout' bytes')
    (analyzed :
      analyze U (symbolize U statements labels).2 (symbolize U statements labels).1 = some a)
    (answers : Answers (tapePlatform tape undefinedShift)) :
    (∀ n s, Run.after (blockStep (tapePlatform tape undefinedShift)) n (interpreterStart bytes) =
        some s →
      FineUpTo tape undefinedShift (optimizerPatch U statements labels a bytes) bytes n →
      ∃ m t, Run.after (blockStep (tapePlatform tape undefinedShift)) m (interpreterStart bytes') =
          some t ∧
        shown (tapePlatform tape undefinedShift) bytes' m =
          shown (tapePlatform tape undefinedShift) bytes n) ∧
    ((∀ n, ∃ s, Run.after (blockStep (tapePlatform tape undefinedShift)) n
        (interpreterStart bytes) = some s ∧
        FineUpTo tape undefinedShift (optimizerPatch U statements labels a bytes) bytes n) →
      (∀ m, ∃ t, Run.after (blockStep (tapePlatform tape undefinedShift)) m
        (interpreterStart bytes') = some t) ∧
      SameShown (tapePlatform tape undefinedShift) bytes bytes') := by
  obtain ⟨a', analyzed', rewritten⟩ := rewritten_of parsed returned optimized
  cases analyzed.symm.trans analyzed'
  have patched := patched_of accepted same parsed numbers rewritten
  exact ⟨fun _ _ run fine => patched.shows answers run fine, patched.sameShown answers⟩

end

/-! ## Examples -/

/-- An instruction without data or address that stays, or is deleted rightly. -/
structure PlainStep (p : Patch) (vm : VM) (i : Insn) : Prop where
  here : p.insn vm.programCounter.toNat = some i
  plain : i.address = none
  silent : i.readLength = 0 ∧ i.writeLength = 0
  stays : p.fate vm.programCounter.toNat ≠ .overwritten

theorem fineUpTo_plain {tape : Tape} {undefinedShift : Byte → BitVec 32} {p : Patch}
    {rom : List Byte} {n : Nat}
    (plain : ∀ k < n, ∀ s, Run.after (blockStep (tapePlatform tape undefinedShift)) k
      (interpreterStart rom) = some s → ∃ i, PlainStep p s.vm i) :
    FineUpTo tape undefinedShift p rom n := by
  intro k small c reached
  have same := @after_traced tape undefinedShift p k ⟨interpreterStart rom, .start⟩
  rw [reached] at same
  obtain ⟨i, step⟩ := plain k small c.state same
  obtain ⟨reads, writes⟩ := step.silent
  have other {j : Insn} (takes : j.address ≠ none) : i ≠ j := fun same => takes (same ▸ step.plain)
  refine ⟨i, step.here, fun _ => other (Option.some_ne_none _), ?_,
    fun _ _ => other (Option.some_ne_none _), fun overwritten => absurd overwritten step.stays,
    fun _ j inside => ?_⟩
  · rw [Insn.read_eq, Insn.written_eq, reads, writes]
    exact nofun
  · rw [reads] at inside
    exact absurd inside (Nat.not_lt_zero j)

/-- One key is down at every wait. -/
def pressedTape : Tape := { quietTape with awaited := fun _ => 1#32 }

theorem pressedTape_answers : Answers (tapePlatform pressedTape fun _ => 0#32) := by
  intro e _
  exact ⟨0, by decide, (by decide : 1#32 &&& 1#32 <<< 0 ≠ 0#32)⟩

/-- A no-op and a sum. -/
def sumText : Text := "LD V0, 1
LD V1, V1
LD V2, 5
ADD V2, 3
LD DT, V2
L: JP L".toList

def sumStatements : List Statement :=
  [⟨1, none, some ['L', 'D'], [['V', '0'], ['1']], 0x200, 2⟩,
    ⟨2, none, some ['L', 'D'], [['V', '1'], ['V', '1']], 0x202, 2⟩,
    ⟨3, none, some ['L', 'D'], [['V', '2'], ['5']], 0x204, 2⟩,
    ⟨4, none, some ['A', 'D', 'D'], [['V', '2'], ['3']], 0x206, 2⟩,
    ⟨5, none, some ['L', 'D'], [['D', 'T'], ['V', '2']], 0x208, 2⟩,
    ⟨6, some ['L'], some ['J', 'P'], [['L']], 0x20a, 2⟩]

def sumLabels : Labels := [(['L'], 0x20a)]

/-- What `optimize_peepholes` makes of it. -/
def sumOut : List Statement :=
  [⟨1, none, some ['L', 'D'], [['V', '0'], ['1']], 0x200, 2⟩,
    ⟨3, none, some ['L', 'D'], [['V', '2'], byteText 8], 0x204, 2⟩,
    ⟨5, none, some ['L', 'D'], [['D', 'T'], ['V', '2']], 0x208, 2⟩,
    ⟨6, some ['L'], some ['J', 'P'], [['L']], 0x20a, 2⟩]

def sumRom : List Byte :=
  [0x60, 0x01, 0x81, 0x10, 0x62, 0x05, 0x72, 0x03, 0xf2, 0x15, 0x12, 0x0a]

theorem optimize_preserves_sum :
    ∃ m t, Run.after (blockStep (tapePlatform pressedTape fun _ => 0#32)) m
        (interpreterStart [0x60, 0x01, 0x62, 0x08, 0xf2, 0x15, 0x12, 0x06]) = some t ∧
      (shown (tapePlatform pressedTape fun _ => 0#32)
        [0x60, 0x01, 0x62, 0x08, 0xf2, 0x15, 0x12, 0x06] m).map Prod.fst = [.setDelay 8#8] := by
  have accepted : Asm.assemble (encode sumText) = .ok sumRom := by decide +kernel
  have parsed : parseSource ascii sumText = .ok (sumStatements, sumLabels) := by decide +kernel
  have read : sourceItems ascii sumText = [⟨none, [['L', 'D'], ['V', '0'], ['1']]⟩,
      ⟨none, [['L', 'D'], ['V', '1'], ['V', '1']]⟩, ⟨none, [['L', 'D'], ['V', '2'], ['5']]⟩,
      ⟨none, [['A', 'D', 'D'], ['V', '2'], ['3']]⟩, ⟨none, [['L', 'D'], ['D', 'T'], ['V', '2']]⟩,
      ⟨some ['L'], []⟩, ⟨none, [['J', 'P'], ['L']]⟩] := by
    decide +kernel
  have same : SameReading ascii sumText := by
    refine ⟨⟨[⟨none, [['L', 'D'], ['V', '0'], ['1']]⟩, ⟨none, [['L', 'D'], ['V', '1'], ['V', '1']]⟩,
      ⟨none, [['L', 'D'], ['V', '2'], ['5']]⟩, ⟨none, [['A', 'D', 'D'], ['V', '2'], ['3']]⟩,
      ⟨none, [['L', 'D'], ['D', 'T'], ['V', '2']]⟩, ⟨some ['L'], [['J', 'P'], ['L']]⟩], ?_, ?_⟩,
      ?_, ?_⟩
    · exact .cons rfl (.cons rfl (.cons rfl (.cons rfl (.cons rfl (.cons rfl .nil)))))
    · rw [read]
      decide
    · rw [read]
      intro a here
      simp [opOrg] at here
    · rw [read]
      decide
  have numbers : SameNumbers ascii sumStatements := by
    intro s here _ a operand n number
    simp only [sumStatements, List.mem_cons, List.not_mem_nil, or_false] at here
    obtain rfl | rfl | rfl | rfl | rfl | rfl := here
    all_goals
      simp only [List.mem_cons, List.not_mem_nil, or_false] at operand
      obtain rfl | rfl := operand
    all_goals
      cases number
    all_goals
      rfl
  have returned : optimizePeepholes ascii sumStatements sumLabels =
      .ok (sumOut, [⟨0x202, .noop, some ['L', 'D'], some ['V', '1']⟩,
        ⟨0x204, .fold 8, some ['L', 'D'], some ['V', '2']⟩]) := by
    decide +kernel
  have optimized : Assembled sumOut ⟨[⟨['L'], 0x206⟩], 0x208⟩
      [0x60, 0x01, 0x62, 0x08, 0xf2, 0x15, 0x12, 0x06] :=
    ⟨by decide +kernel, ⟨0x208, _⟩, by decide +kernel, rfl⟩
  -- No step executes an overwritten load, so every step of the run is fine.
  have fates : (analyze ascii (symbolize ascii sumStatements sumLabels).2
      (symbolize ascii sumStatements sumLabels).1).elim false (fun a =>
        [0x200, 0x202, 0x204, 0x206, 0x208].all fun pc =>
          (optimizerPatch ascii sumStatements sumLabels a sumRom).fate pc != .overwritten) =
      true := by
    decide +kernel
  cases analyzed : analyze ascii (symbolize ascii sumStatements sumLabels).2
    (symbolize ascii sumStatements sumLabels).1 with
  | none =>
    rw [analyzed] at fates
    cases fates
  | some a =>
    rw [analyzed] at fates
    simp only [Option.elim_some, List.all_cons, List.all_nil, Bool.and_true, Bool.and_eq_true,
      bne_iff_ne] at fates
    obtain ⟨first, second, third, fourth, fifth⟩ := fates
    obtain ⟨m, t, reached, shows⟩ := (optimize_preserves accepted same parsed numbers returned
      optimized analyzed pressedTape_answers).1 5 _ rfl <| fineUpTo_plain <| by
        intro k small s reached
        interval_cases k <;> cases reached
        · exact ⟨_, rfl, rfl, ⟨rfl, rfl⟩, first⟩
        · exact ⟨_, rfl, rfl, ⟨rfl, rfl⟩, second⟩
        · exact ⟨_, rfl, rfl, ⟨rfl, rfl⟩, third⟩
        · exact ⟨_, rfl, rfl, ⟨rfl, rfl⟩, fourth⟩
        · exact ⟨_, rfl, rfl, ⟨rfl, rfl⟩, fifth⟩
    refine ⟨m, t, reached, ?_⟩
    rw [shows]
    rfl

/-- A run without an error, without more than sixteen calls on the stack, and without reads or
writes of the ROM as data. -/
structure Blameless (P : Platform Cursor) (rom : List Byte) : Prop where
  goes : ∀ n, ∃ s, Run.after (blockStep P) n (interpreterStart rom) = some s
  shallow : ∀ n s, Run.after (blockStep P) n (interpreterStart rom) = some s →
    s.vm.stackPointer ≤ stackSize
  outside : ∀ n s, Run.after (blockStep P) n (interpreterStart rom) = some s → ∀ i,
    decode (opcodeAt s.vm.memory s.vm.programCounter) = some i →
      ∀ a ∈ i.read s.vm.addr ++ i.written s.vm.addr, ¬ InRom rom a.toNat

theorem shown_grows (P : Platform Cursor) (rom : List Byte) {k m : Nat} (order : k ≤ m) :
    shown P rom k <+: shown P rom m := by
  induction m, order using Nat.le_induction with
  | base => exact List.prefix_refl _
  | succ m _ ih => exact ih.trans (List.prefix_append _ _)

/-- A load in front of a load of the register into itself. -/
def selfText : Text := "LD V0, 1
LD V1, 5
LD V1, V1
LD DT, V1
L: JP L".toList

def selfStatements : List Statement :=
  [⟨1, none, some ['L', 'D'], [['V', '0'], ['1']], 0x200, 2⟩,
    ⟨2, none, some ['L', 'D'], [['V', '1'], ['5']], 0x202, 2⟩,
    ⟨3, none, some ['L', 'D'], [['V', '1'], ['V', '1']], 0x204, 2⟩,
    ⟨4, none, some ['L', 'D'], [['D', 'T'], ['V', '1']], 0x206, 2⟩,
    ⟨5, some ['L'], some ['J', 'P'], [['L']], 0x208, 2⟩]

def selfRom : List Byte := [0x60, 0x01, 0x61, 0x05, 0x81, 0x10, 0xf1, 0x15, 0x12, 0x08]

/-- A state of its run. -/
structure Calm (s : State Cursor) : Prop where
  memory : s.vm.memory = loadRom selfRom
  empty : s.vm.stackPointer = 0
  control : s.vm.programCounter ∈ [0x200#16, 0x202#16, 0x204#16, 0x206#16, 0x208#16]

theorem Calm.step {s : State Cursor} (calm : Calm s) (P : Platform Cursor) :
    ∃ i t, decode (opcodeAt s.vm.memory s.vm.programCounter) = some i ∧
      i.readLength = 0 ∧ i.writeLength = 0 ∧ blockStep P s = some t ∧ Calm t := by
  obtain ⟨memory, empty, control⟩ := calm
  have word {pc : Word} {i : Insn} (here : s.vm.programCounter = pc)
      (decoded : decode (opcodeAt (loadRom selfRom) pc) = some i) :
      decode (opcodeAt s.vm.memory s.vm.programCounter) = some i := by
    rw [memory, here]
    exact decoded
  have next {pc : Word} (here : s.vm.programCounter = pc) (among : pc + 2 ∈
      [0x200#16, 0x202#16, 0x204#16, 0x206#16, 0x208#16]) :
      s.vm.programCounter + 2 ∈ [0x200#16, 0x202#16, 0x204#16, 0x206#16, 0x208#16] := by
    rw [here]
    exact among
  simp only [List.mem_cons, List.not_mem_nil, or_false] at control
  obtain here | here | here | here | here := control
  · have decoded := word here (by decide : _ = some (.ld 0#4 1#8))
    exact ⟨_, _, decoded, rfl, rfl, blockStep_of_exec P decoded rfl, memory, empty,
      next here (by decide)⟩
  · have decoded := word here (by decide : _ = some (.ld 1#4 5#8))
    exact ⟨_, _, decoded, rfl, rfl, blockStep_of_exec P decoded rfl, memory, empty,
      next here (by decide)⟩
  · have decoded := word here (by decide : _ = some (.alu .move 1#4 1#4))
    exact ⟨_, _, decoded, rfl, rfl, blockStep_of_exec P decoded rfl, memory, empty,
      next here (by decide)⟩
  · have decoded := word here (by decide : _ = some (.setDelay 1#4))
    exact ⟨_, _, decoded, rfl, rfl, blockStep_of_exec P decoded rfl, memory, empty,
      next here (by decide)⟩
  · have decoded := word here (by decide : _ = some (.jp 0x208#12))
    have loop : (0x208#12).setWidth 16 ∈ [0x200#16, 0x202#16, 0x204#16, 0x206#16, 0x208#16] := by
      decide
    exact ⟨_, _, decoded, rfl, rfl, blockStep_of_exec P decoded rfl, memory, empty, loop⟩

theorem calm_run (P : Platform Cursor) (n : Nat) :
    ∃ s, Run.after (blockStep P) n (interpreterStart selfRom) = some s ∧ Calm s := by
  induction n with
  | zero => exact ⟨_, rfl, rfl, rfl, List.mem_cons_self⟩
  | succ n ih =>
    obtain ⟨s, run, calm⟩ := ih
    obtain ⟨i, t, -, -, -, stepped, calm'⟩ := calm.step P
    exact ⟨t, Run.after_succ.mpr ⟨s, run, stepped⟩, calm'⟩

theorem selfRom_blameless (P : Platform Cursor) : Blameless P selfRom := by
  have calm {n : Nat} {s : State Cursor}
      (run : Run.after (blockStep P) n (interpreterStart selfRom) = some s) : Calm s := by
    obtain ⟨s', run', calm⟩ := calm_run P n
    cases run.symm.trans run'
    exact calm
  refine ⟨fun n => (calm_run P n).imp fun s => And.left, fun n s run => ?_,
    fun n s run i insn => ?_⟩
  · rw [(calm run).empty]
    decide
  · obtain ⟨i', t, decoded, reads, writes, -⟩ := (calm run).step P
    obtain rfl := Option.some.inj (insn.symm.trans decoded)
    rw [Insn.read_eq, Insn.written_eq, reads, writes]
    exact nofun

/-- Both loads are deleted. -/
theorem optimize_loses_load :
    ∃ out changes, Asm.assemble (encode selfText) = .ok selfRom ∧
      parseSource ascii selfText = .ok (selfStatements, [(['L'], 0x208)]) ∧
      optimizePeepholes ascii selfStatements [(['L'], 0x208)] = .ok (out, changes) ∧
      Asm.assemble (encode (canonicalize out)) = .ok [0x60, 0x01, 0xf1, 0x15, 0x12, 0x04] ∧
      Answers (tapePlatform pressedTape fun _ => 0#32) ∧
      Blameless (tapePlatform pressedTape fun _ => 0#32) selfRom ∧
      ¬ SameShown (tapePlatform pressedTape fun _ => 0#32) selfRom
        [0x60, 0x01, 0xf1, 0x15, 0x12, 0x04] := by
  refine ⟨[⟨1, none, some ['L', 'D'], [['V', '0'], ['1']], 0x200, 2⟩,
      ⟨4, none, some ['L', 'D'], [['D', 'T'], ['V', '1']], 0x206, 2⟩,
      ⟨5, some ['L'], some ['J', 'P'], [['L']], 0x208, 2⟩],
    [⟨0x202, .overwritten, some ['L', 'D'], some ['V', '1']⟩,
      ⟨0x204, .noop, some ['L', 'D'], some ['V', '1']⟩], by decide +kernel, by decide +kernel,
    by decide +kernel, by decide +kernel, pressedTape_answers, ?_, ?_⟩
  · exact selfRom_blameless _
  · rintro ⟨shows, -⟩
    obtain ⟨m, same⟩ := shows 4
    have events := congrArg (List.map Prod.fst) same
    have five : (shown (tapePlatform pressedTape fun _ => 0#32) selfRom 4).map Prod.fst =
        [.setDelay 5#8] := rfl
    rw [five] at events
    by_cases early : m ≤ 1
    · obtain ⟨rest, whole⟩ := (shown_grows (tapePlatform pressedTape fun _ => 0#32)
        [0x60, 0x01, 0xf1, 0x15, 0x12, 0x04] early).map Prod.fst
      have none : (shown (tapePlatform pressedTape fun _ => 0#32)
        [0x60, 0x01, 0xf1, 0x15, 0x12, 0x04] 1).map Prod.fst = [] := rfl
      rw [none, events] at whole
      cases whole
    · obtain ⟨rest, whole⟩ := (shown_grows (tapePlatform pressedTape fun _ => 0#32)
        [0x60, 0x01, 0xf1, 0x15, 0x12, 0x04] (Nat.lt_of_not_le early)).map Prod.fst
      have zero : (shown (tapePlatform pressedTape fun _ => 0#32)
        [0x60, 0x01, 0xf1, 0x15, 0x12, 0x04] 2).map Prod.fst = [.setDelay 0#8] := rfl
      rw [zero, events] at whole
      cases whole

end ChipEight.Opt
