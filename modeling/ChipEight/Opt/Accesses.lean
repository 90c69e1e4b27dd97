import ChipEight.Opt.Soundness

/-! The accesses `analyze` records.

A visit records what the statement accesses in the state of the visit. When the worklist is
empty every context has been visited in its last state, so what is missing at the end was
never asked for: `LD Vx, [I]` takes the branch of the register loads.
-/

set_option autoImplicit false

namespace ChipEight.Opt

open Asm (Text Token Mnemonic startsWithV reg wordI wordF wordB wordMemory)

/-! ## Recording -/

/-- The entry `add_access` appends. -/
def accessEntry (access : Access) : Option Access :=
  match access.start with
  | none => some access
  | some start =>
    if start == externalI then none
    else if isDynamicBase (some start) then
      some { access with
        kind := access.kind.dynamic
        start := some (decodeDynamicBase start) }
    else some access

theorem addAccess_accesses (access : Access) (a : Analysis) :
    (addAccess access a).accesses = a.accesses ++ (accessEntry access).toList := by
  obtain ⟨pc, kind, start, length, reason⟩ := access
  cases start with
  | none => rfl
  | some start =>
    unfold addAccess accessEntry
    dsimp only
    by_cases external : (start == externalI) = true
    · rw [if_pos external, if_pos external]
      exact (List.append_nil _).symm
    · rw [if_neg external, if_neg external]
      split <;> rfl

theorem addHazards_accesses (hazards : List Hazard) (a : Analysis) :
    (hazards.foldl Analysis.addHazard a).accesses = a.accesses := by
  induction hazards generalizing a with
  | nil => rfl
  | cons h hazards ih => exact ih (a.addHazard h)

/-- `read` and `write`, dynamic or not. -/
def AccessKind.direction : AccessKind → AccessKind
  | .dynamicRead => .read
  | .dynamicWrite => .write
  | kind => kind

theorem accessEntry_kept {access entry : Access} (kept : accessEntry access = some entry) :
    entry.pc = access.pc ∧ entry.length = access.length ∧
      entry.kind.direction = access.kind.direction := by
  unfold accessEntry at kept
  split at kept
  · cases kept
    exact ⟨rfl, rfl, rfl⟩
  split at kept
  · cases kept
  split at kept
  · cases kept
    refine ⟨rfl, rfl, ?_⟩
    show access.kind.dynamic.direction = _
    cases access.kind <;> rfl
  · cases kept
    exact ⟨rfl, rfl, rfl⟩

theorem accessEntry_some {access : Access} (inside : access.start ≠ some externalI) :
    ∃ entry, accessEntry access = some entry := by
  obtain ⟨pc, kind, start, length, reason⟩ := access
  cases start with
  | none => exact ⟨_, rfl⟩
  | some start =>
    unfold accessEntry
    dsimp only
    rw [if_neg fun external => inside (congrArg some (beq_iff_eq.mp external))]
    split <;> exact ⟨_, rfl⟩

section
variable (U : Unicode) (labels : Labels) (statements : List Statement)

/-- What a visit asks to be recorded. -/
def requestsAt (pc : Nat) (σ : Constants) : List Access :=
  match instructionAt statements pc with
  | none => []
  | some stmt =>
    ((transfer U labels stmt σ).elim [] Prod.snd).map fun q =>
      ⟨pc, q.kind, q.start, q.length, q.reason⟩

variable {U labels statements}

theorem record_accesses (context : Context) (σ : Constants) (a : Analysis) :
    (record U labels statements context σ a).accesses =
      a.accesses ++ (requestsAt U labels statements context.1 σ).filterMap accessEntry := by
  unfold record requestsAt
  cases instructionAt statements context.1 with
  | none => exact (List.append_nil _).symm
  | some stmt =>
    dsimp only
    rw [addHazards_accesses]
    generalize (transfer U labels stmt σ).elim [] Prod.snd = requests
    have first : a.accesses =
        ({ a with reachable := a.reachable.insert context.1 } : Analysis).accesses := rfl
    rw [first]
    generalize ({ a with reachable := a.reachable.insert context.1 } : Analysis) = a
    induction requests generalizing a with
    | nil => exact (List.append_nil _).symm
    | cons q requests ih =>
      rw [List.foldl_cons, ih, addAccess_accesses, List.map_cons, List.append_assoc]
      cases kept : accessEntry ⟨context.1, q.kind, q.start, q.length, q.reason⟩ with
      | none =>
        rw [List.filterMap_cons_none kept]
        rfl
      | some e =>
        rw [List.filterMap_cons_some kept]
        rfl

/-! ## The loop -/

/-- A settled context has been visited in the state it has, and nothing else was recorded. -/
structure Recorded (U : Unicode) (labels : Labels) (statements : List Statement) (p : Progress) :
    Prop where
  visited : ∀ c σ, p.table.incoming c = some σ → c ∉ p.table.work →
    ∀ e ∈ (requestsAt U labels statements c.1 σ).filterMap accessEntry, e ∈ p.result.accesses
  asked : ∀ e ∈ p.result.accesses, ∃ σ, ∃ request ∈ requestsAt U labels statements e.pc σ,
    accessEntry request = some e

theorem recorded_start : Recorded U labels statements .start := by
  constructor
  · intro c σ here idle
    have other : c ≠ (entry, []) := fun same => idle (same ▸ List.mem_cons_self)
    rw [start_incoming, if_neg other] at here
    cases here
  · exact fun e here => absurd here List.not_mem_nil

theorem visit_eq {p p' : Progress} (stepped : visit U labels statements p = some p') :
    ∃ c rest σ out, p.table.work = c :: rest ∧ p.table.incoming c = some σ ∧
      passOn U labels statements c σ = some out ∧
      p'.table = out.foldl (Worklist.relax (flow U labels statements)) ⟨p.table.incoming, rest⟩ ∧
      p'.result = record U labels statements c σ p.result := by
  have tables := @visit_table U labels statements p
  rw [stepped, Option.map_some] at tables
  obtain ⟨c, rest, σ, out, work, here, edges, table⟩ := Worklist.step_eq_some tables
  refine ⟨c, rest, σ, out, work, here, edges, table, ?_⟩
  unfold visit at stepped
  simp only [work, List.head?_cons, Option.bind_eq_bind, Option.bind_some, here] at stepped
  obtain ⟨t, -, rest⟩ := Option.bind_eq_some_iff.mp stepped
  cases rest
  rfl

theorem visit_recorded {p p' : Progress} (recorded : Recorded U labels statements p)
    (stepped : visit U labels statements p = some p') : Recorded U labels statements p' := by
  obtain ⟨c, rest, σ, out, work, here, -, table, result⟩ := visit_eq stepped
  obtain ⟨-, -, waits, old⟩ := Worklist.relaxAll
    (@flow_lawful U labels statements) out ⟨p.table.incoming, rest⟩
  constructor
  · intro c' σ' there idle e asked
    rw [table] at there idle
    rw [old c' idle] at there
    rw [result, record_accesses]
    by_cases popped : c' = c
    · subst popped
      cases here.symm.trans there
      exact List.mem_append_right _ asked
    · have idle' : c' ∉ p.table.work := by
        rw [work]
        intro waiting
        exact idle (waits c' ((List.mem_cons.mp waiting).resolve_left popped))
      exact List.mem_append_left _ (recorded.visited c' σ' there idle' e asked)
  · intro e inside
    rw [result, record_accesses] at inside
    obtain before | now := List.mem_append.mp inside
    · exact recorded.asked e before
    · obtain ⟨request, asked, kept⟩ := List.mem_filterMap.mp now
      have pc : e.pc = c.1 := by
        have same := (accessEntry_kept kept).1
        unfold requestsAt at asked
        split at asked
        · cases asked
        · obtain ⟨q, -, rfl⟩ := List.mem_map.mp asked
          exact same
      exact ⟨σ, request, pc ▸ asked, kept⟩

theorem fixpoint_recorded : Recorded U labels statements (fixpoint U labels statements) :=
  Run.finish_invariant (fun _ _ => visit_recorded) recorded_start

theorem writeHazards_keeps (a : Analysis) :
    (writeHazards statements a).accesses = a.accesses ∧
      (writeHazards statements a).reachable = a.reachable := by
  unfold writeHazards
  refine List.foldlRecOn (motive := fun b : Analysis =>
    b.accesses = a.accesses ∧ b.reachable = a.reachable) a.accesses _ ⟨rfl, rfl⟩
    fun b kept access _ => ?_
  have hazards (pcs : List Nat) (c : Analysis) :
      (pcs.foldl (fun c pc => c.addHazard (.selfModifying access.pc pc)) c).accesses = c.accesses ∧
        (pcs.foldl (fun c pc => c.addHazard (.selfModifying access.pc pc)) c).reachable =
          c.reachable :=
    List.foldlRecOn (motive := fun d : Analysis =>
      d.accesses = c.accesses ∧ d.reachable = c.reachable) pcs _ ⟨rfl, rfl⟩ fun _ same _ _ => same
  unfold writeHazard
  split
  · split
    · refine ⟨(hazards _ _).1.trans ?_, (hazards _ _).2.trans ?_⟩
      · split
        · exact kept.1
        · exact kept.1
      · split
        · exact kept.2
        · exact kept.2
    · exact kept
  · exact kept

theorem analyze_eq {a : Analysis} (analyzed : analyze U labels statements = some a) :
    (fixpoint U labels statements).table.work = [] ∧
      a = writeHazards statements (fixpoint U labels statements).result := by
  unfold analyze at analyzed
  dsimp only at analyzed
  split at analyzed
  · rename_i empty
    exact ⟨List.isEmpty_iff.mp empty, (Option.some.inj analyzed).symm⟩
  · cases analyzed

/-! ## Statements -/

/-- What a statement accesses, as the assembler reads it: the direction and the number of
bytes. -/
def memoryAccess (labels : Labels) (s : Statement) : Option (AccessKind × Nat) :=
  match s.args with
  | [_, _, c] =>
    if s.op == some Mnemonic.drw.text then
      (Asm.value (encodeLabels labels) true (encode c)).toOption.map fun n => (.read, n)
    else none
  | [a, b] =>
    if s.op == some Mnemonic.ld.text then
      if a == wordB then (reg b).toOption.map fun _ => (.write, 3)
      else if a == wordMemory then (reg b).toOption.map fun x => (.write, x.toNat + 1)
      else if b == wordMemory then (reg a).toOption.map fun x => (.read, x.toNat + 1)
      else none
    else none
  | _ => none

/-- I points into the font in every context the address was reached in. -/
def InFont (U : Unicode) (labels : Labels) (statements : List Statement) (pc : Nat) : Prop :=
  ∀ returns σ, (states U labels statements).incoming (pc, returns) = some σ → σ.i = some externalI

/-- The accesses of a statement that `analyze` does not see: `LD Vx, [I]` is a register load to
it, and the height of a sprite may be another number. -/
def Overlooked (U : Unicode) (labels : Labels) (s : Statement) : Prop :=
  match s.args with
  | [_, _, c] => ∀ n, Asm.value (encodeLabels labels) true (encode c) = .ok n →
      resolve U labels c ≠ some (n : Int)
  | [_, b] => b = wordMemory
  | _ => True

/-- Every access of a reachable statement is recorded. -/
def AllRecorded (U : Unicode) (labels : Labels) (statements : List Statement) : Prop :=
  ∀ a, analyze U labels statements = some a → ∀ pc ∈ a.reachable, ∀ s,
    instructionAt statements pc = some s → ∀ kind len, memoryAccess labels s = some (kind, len) →
      InFont U labels statements pc ∨
        ∃ e ∈ a.accesses, e.pc = pc ∧ e.kind.direction = kind ∧ e.length = some (len : Int)

/-- Every access that is overlooked is one to the font. -/
def OverlooksFont (U : Unicode) (labels : Labels) (statements : List Statement) : Prop :=
  ∀ a, analyze U labels statements = some a → ∀ pc ∈ a.reachable, ∀ s,
    instructionAt statements pc = some s → (memoryAccess labels s).isSome = true →
      Overlooked U labels s → InFont U labels statements pc

theorem toOption_some {ε α : Type} {x : Except ε α} {a : α} (known : x.toOption = some a) :
    x = .ok a := by
  cases x with
  | error e => cases known
  | ok b => exact congrArg Except.ok (Option.some.inj known)

theorem transfer_draw {s : Statement} (op : s.op = some Mnemonic.drw.text) {a b c : Token}
    (args : s.args = [a, b, c]) (σ : Constants) :
    transfer U labels s σ = some (σ, [⟨.read, σ.i, resolve U labels c, "sprite read"⟩]) := by
  unfold transfer
  rw [op, args]
  rfl

theorem requests_seen {s : Statement} {kind : AccessKind} {len : Nat}
    (accesses : memoryAccess labels s = some (kind, len)) (seen : ¬ Overlooked U labels s)
    (σ : Constants) :
    kind.direction = kind ∧
      ∃ reason, transfer U labels s σ = some (σ, [⟨kind, σ.i, some (len : Int), reason⟩]) := by
  unfold memoryAccess at accesses
  unfold Overlooked at seen
  split at accesses
  case h_1 a b c shape =>
    split at accesses
    · rename_i isDraw
      obtain ⟨n, value, pair⟩ := Option.map_eq_some_iff.mp accesses
      cases pair
      have known := toOption_some value
      -- Not overlooked: the optimizer reads the height as the assembler does.
      have resolved : resolve U labels c = some (len : Int) := by
        rw [shape] at seen
        by_contra other
        exact seen fun m read => (Except.ok.inj (known.symm.trans read)) ▸ other
      refine ⟨rfl, "sprite read", ?_⟩
      rw [transfer_draw (beq_iff_eq.mp isDraw) shape, resolved]
    · cases accesses
  case h_2 a b shape =>
    rw [shape] at seen
    split at accesses
    · rename_i isLoad
      rw [transfer_load (beq_iff_eq.mp isLoad) shape]
      split at accesses
      · rename_i isB
        obtain ⟨x, value, pair⟩ := Option.map_eq_some_iff.mp accesses
        cases pair
        have names := names_reg U (toOption_some value)
        refine ⟨rfl, "BCD store", ?_⟩
        rw [beq_iff_eq.mp isB]
        simp only [transferLoad, names.starts]
        rfl
      split at accesses
      · rename_i isMemory
        obtain ⟨x, value, pair⟩ := Option.map_eq_some_iff.mp accesses
        cases pair
        have names := names_reg U (toOption_some value)
        refine ⟨rfl, "register store", ?_⟩
        rw [beq_iff_eq.mp isMemory]
        simp only [transferLoad, names.starts, names.index]
        rfl
      split at accesses
      · rename_i isMemory
        -- A load of registers is never asked for, so it is always overlooked.
        exact absurd (beq_iff_eq.mp isMemory) seen
      · cases accesses
    · cases accesses
  case h_3 => cases accesses

theorem requests_overlooked {s : Statement} {kind : AccessKind} {len : Nat}
    (accesses : memoryAccess labels s = some (kind, len)) (overlooked : Overlooked U labels s)
    (σ : Constants) :
    ∀ q ∈ (transfer U labels s σ).elim [] Prod.snd, q.length ≠ some (len : Int) := by
  unfold memoryAccess at accesses
  unfold Overlooked at overlooked
  split at accesses
  case h_1 a b c shape =>
    rw [shape] at overlooked
    split at accesses
    · rename_i isDraw
      obtain ⟨n, value, pair⟩ := Option.map_eq_some_iff.mp accesses
      cases pair
      rw [transfer_draw (beq_iff_eq.mp isDraw) shape]
      intro q asked
      obtain rfl := List.mem_singleton.mp asked
      exact overlooked len (toOption_some value)
    · cases accesses
  case h_2 a b shape =>
    rw [shape] at overlooked
    obtain rfl : b = wordMemory := overlooked
    split at accesses
    · rename_i isLoad
      rw [transfer_load (beq_iff_eq.mp isLoad) shape]
      split at accesses
      · cases accesses
      split at accesses
      · cases accesses
      rw [if_pos (beq_self_eq_true wordMemory)] at accesses
      obtain ⟨x, first, -⟩ := Option.map_eq_some_iff.mp accesses
      -- The branch of the register loads is taken before the one of `[I]`.
      have second : operandValue U labels σ wordMemory = some (resolve U labels wordMemory) :=
        operandValue_other rfl σ
      rw [transferLoad_reg (toOption_some first) second]
      exact fun q asked => absurd asked List.not_mem_nil
    · cases accesses
  case h_3 => cases accesses

/-- Every access is recorded exactly where the accesses that are overlooked go to the font. -/
theorem allRecorded_iff (U : Unicode) (labels : Labels) (statements : List Statement) :
    AllRecorded U labels statements ↔ OverlooksFont U labels statements := by
  have recorded := @fixpoint_recorded U labels statements
  constructor
  · intro all a analyzed pc reached s found isAccess overlooked
    obtain ⟨⟨kind, len⟩, accesses⟩ := Option.isSome_iff_exists.mp isAccess
    obtain font | ⟨e, inside, rfl, -, length⟩ := all a analyzed pc reached s found kind len accesses
    · exact font
    · obtain ⟨-, rfl⟩ := analyze_eq analyzed
      rw [(writeHazards_keeps _).1] at inside
      obtain ⟨σ, request, asked, kept⟩ := recorded.asked e inside
      unfold requestsAt at asked
      rw [found] at asked
      dsimp only at asked
      obtain ⟨q, asks, rfl⟩ := List.mem_map.mp asked
      -- What is recorded was asked for, and nobody asks for the bytes of an overlooked access.
      have wrong := requests_overlooked accesses overlooked σ q asks
      exact absurd ((accessEntry_kept kept).2.1.symm.trans length) wrong
  · intro onlyFont a analyzed pc reached s found kind len accesses
    by_cases font : InFont U labels statements pc
    · exact .inl font
    · have seen : ¬ Overlooked U labels s := fun overlooked =>
        font (onlyFont a analyzed pc reached s found (by rw [accesses]; rfl) overlooked)
      obtain ⟨empty, rfl⟩ := analyze_eq analyzed
      rw [(writeHazards_keeps _).1]
      unfold InFont at font
      simp only [not_forall] at font
      obtain ⟨returns, σ, here, inside⟩ := font
      obtain ⟨plain, reason, asks⟩ := requests_seen accesses seen σ
      obtain ⟨e, kept⟩ := @accessEntry_some ⟨pc, kind, σ.i, some (len : Int), reason⟩ inside
      -- The fixpoint has no work left, so the context has been visited with its state.
      have idle : (pc, returns) ∉ (fixpoint U labels statements).table.work := by
        rw [empty]
        exact List.not_mem_nil
      have entered := recorded.visited (pc, returns) σ here idle e (by
        refine List.mem_filterMap.mpr ⟨_, ?_, kept⟩
        unfold requestsAt
        rw [found]
        dsimp only
        rw [asks]
        exact List.mem_cons_self)
      obtain ⟨samePc, length, direction⟩ := accessEntry_kept kept
      exact .inr ⟨e, entered, samePc, direction.trans plain, length⟩

end

/-- A register is loaded from the data of the ROM. -/
def loadsData : Text := "LD I, d
LD V0, [I]
L: JP L
d: .byte 7".toList

/-- The load has no entry. -/
theorem allRecorded_missing :
    ∃ bytes statements labels, Asm.assemble (encode loadsData) = .ok bytes ∧
      parseSource ascii loadsData = .ok (statements, labels) ∧
        ¬ AllRecorded ascii labels statements := by
  let statements : List Statement :=
    [⟨1, none, some ['L', 'D'], [['I'], ['D']], 0x200, 2⟩,
      ⟨2, none, some ['L', 'D'], [['V', '0'], ['[', 'I', ']']], 0x202, 2⟩,
      ⟨3, some ['L'], some ['J', 'P'], [['L']], 0x204, 2⟩,
      ⟨4, some ['D'], some opByte, [['7']], 0x206, 1⟩]
  let labels : Labels := [(['L'], 0x204), (['D'], 0x206)]
  refine ⟨[0xa2, 0x06, 0xf0, 0x65, 0x12, 0x04, 0x07], statements, labels, by decide +kernel,
    by decide +kernel, fun all => ?_⟩
  have empty : (analyze ascii labels statements).elim false
      (fun a => a.reachable.contains 0x202 && a.accesses.isEmpty) = true := by
    decide +kernel
  have outside : ((states ascii labels statements).incoming (0x202, [])).map Constants.i =
      some (some 0x206) := by
    decide +kernel
  cases analyzed : analyze ascii labels statements with
  | none =>
    rw [analyzed] at empty
    cases empty
  | some a =>
    rw [analyzed] at empty
    obtain ⟨reached, nothing⟩ := Bool.and_eq_true_iff.mp empty
    obtain font | ⟨e, inside, -⟩ := all a analyzed 0x202 (List.contains_iff_mem.mp reached) _ rfl
      .read 1 rfl
    · obtain ⟨σ, here, value⟩ := Option.map_eq_some_iff.mp outside
      rw [font [] σ here] at value
      cases value
    · rw [List.isEmpty_iff.mp nothing] at inside
      cases inside

end ChipEight.Opt
