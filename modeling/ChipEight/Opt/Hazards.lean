import ChipEight.Opt.Accesses
import ChipEight.Opt.Convergence
import ChipEight.Opt.Numbers
import ChipEight.Disas.Reencode

/-! Where the hazards of an analysis come from.

The hazards of control flow are those of the statements control gets to, each with the return
addresses it is met with; the others are those of the accesses. The texts of the hazards are
what `relocation_hazards` chooses by.
-/

set_option autoImplicit false

namespace ChipEight.Opt

open Asm (Text Token Mnemonic startsWithV)
open Disas (hex number)

section
variable (U : Unicode) (labels : Labels) (statements : List Statement)

/-- What makes a statement a hazard when control gets to it with the return addresses. -/
def Meets (s : Statement) (returns : List Nat) : Hazard → Prop
  | .computedJump pc => pc = s.pc ∧ s.op = some Mnemonic.jp.text ∧ s.args.length = 2
  | .unresolvedJump pc => pc = s.pc ∧ s.op = some Mnemonic.jp.text ∧ s.args.length ≠ 2 ∧
      target U labels s = none
  | .unresolvedCall pc => pc = s.pc ∧ s.op = some Mnemonic.call.text ∧ target U labels s = none
  | .deepStack pc => pc = s.pc ∧ s.op = some Mnemonic.call.text ∧
      (target U labels s).isSome ∧ maxReturns ≤ returns.length
  | _ => False

/-- Control gets to the statement with the return addresses. -/
def Gets (s : Statement) (pc : Nat) (returns : List Nat) : Prop :=
  Entered U labels statements (pc, returns) ∧ instructionAt statements pc = some s

/-- Bytes that are written, from a known address on. -/
def Access.Writes (e : Access) (start length : Int) : Prop :=
  e.kind = .write ∧ e.start = some start ∧ e.length = some length

/-- What a hazard of an analysis comes from. -/
def Arises (a : Analysis) : Hazard → Prop
  | .dynamicI pc reason => ∃ e ∈ a.accesses, e.start = none ∧ e.pc = pc ∧ e.reason = reason
  | .payloadWrite pc start => ∃ e ∈ a.accesses, e.pc = pc ∧ ∃ length, e.Writes start length ∧
      start < payloadEnd statements ∧ (entry : Int) < start + length
  | .selfModifying pc code => ∃ e ∈ a.accesses, e.pc = pc ∧ ∃ start length, e.Writes start length ∧
      start ≤ code ∧ (code : Int) < start + length ∧
        ∃ s returns, Gets U labels statements s code returns
  | h => ∃ s pc returns, Gets U labels statements s pc returns ∧ Meets U labels s returns h

variable {U labels statements}

/-! ## One statement -/

theorem mem_transitions_hazards {s : Statement} {returns : List Nat} {h : Hazard} :
    h ∈ (transitions U labels s returns).2 ↔ Meets U labels s returns h := by
  have apart : Mnemonic.jp.text ≠ Mnemonic.call.text ∧ Mnemonic.jp.text ≠ Mnemonic.ret.text ∧
      Mnemonic.call.text ≠ Mnemonic.ret.text := by decide
  unfold transitions successors
  -- CALL, JP, and every other mnemonic, which meets no hazard.
  by_cases call : s.op = some Mnemonic.call.text
  · rw [if_pos (beq_iff_eq.mpr call)]
    cases dest : target U labels s with
    | none => cases h <;> simp [Meets, call, dest, apart.1.symm]
    | some dest' =>
      dsimp only
      split
      · rename_i deep
        cases h <;> simp [Meets, call, dest, apart.1.symm, deep]
      · rename_i room
        cases h <;> simp [Meets, call, dest, apart.1.symm, room]
  · rw [if_neg fun same => call (beq_iff_eq.mp same)]
    by_cases jump : s.op = some Mnemonic.jp.text
    · have notRet : ¬ (s.op == some Mnemonic.ret.text) = true := fun same =>
        apart.2.1 (Option.some.inj (jump.symm.trans (beq_iff_eq.mp same)))
      rw [if_neg notRet, if_neg notRet, if_pos (beq_iff_eq.mpr jump)]
      dsimp only
      split
      · rename_i two
        cases h <;> simp [Meets, jump, beq_iff_eq.mp two, apart.1]
      · rename_i other
        have length : s.args.length ≠ 2 := fun two => other (beq_iff_eq.mpr two)
        cases dest : target U labels s with
        | none => cases h <;> simp [Meets, jump, dest, length, apart.1]
        | some dest' => cases h <;> simp [Meets, jump, dest, length, apart.1]
    · have none : ∀ h, ¬ Meets U labels s returns h := by
        intro h meets
        cases h <;> simp [Meets, call, jump] at meets
      simp only [none, iff_false]
      split
      · split <;> exact List.not_mem_nil
      · rw [if_neg fun same => jump (beq_iff_eq.mp same),
          if_neg fun same => call (beq_iff_eq.mp same)]
        split <;> exact List.not_mem_nil

/-! ## Recording -/

theorem mem_addAccess_hazards {e : Access} {a : Analysis} {h : Hazard} :
    h ∈ (addAccess e a).hazards ↔
      h ∈ a.hazards ∨ e.start = none ∧ h = .dynamicI e.pc e.reason := by
  obtain ⟨pc, kind, start, length, reason⟩ := e
  cases start with
  | none =>
    show h ∈ a.hazards.insert _ ↔ _
    rw [List.mem_insert_iff]
    constructor
    · rintro (rfl | old)
      · exact .inr ⟨rfl, rfl⟩
      · exact .inl old
    · rintro (old | ⟨-, rfl⟩)
      · exact .inr old
      · exact .inl rfl
  | some start =>
    have kept : (addAccess ⟨pc, kind, some start, length, reason⟩ a).hazards = a.hazards := by
      unfold addAccess
      dsimp only
      split
      · rfl
      · split <;> rfl
    rw [kept]
    exact ⟨.inl, fun either => either.resolve_right fun other => nomatch other.1⟩

theorem addAccess_reachable (e : Access) (a : Analysis) :
    (addAccess e a).reachable = a.reachable := by
  unfold addAccess
  split
  · rfl
  · split
    · rfl
    · split <;> rfl

theorem mem_addHazards {hazards : List Hazard} {a : Analysis} {h : Hazard} :
    h ∈ (hazards.foldl Analysis.addHazard a).hazards ↔ h ∈ a.hazards ∨ h ∈ hazards := by
  induction hazards generalizing a with
  | nil => simp
  | cons first hazards ih =>
    rw [List.foldl_cons, ih]
    show h ∈ a.hazards.insert first ∨ _ ↔ _
    rw [List.mem_insert_iff, List.mem_cons]
    tauto

theorem addHazards_reachable (hazards : List Hazard) (a : Analysis) :
    (hazards.foldl Analysis.addHazard a).reachable = a.reachable := by
  induction hazards generalizing a with
  | nil => rfl
  | cons h hazards ih => exact ih (a.addHazard h)

theorem addAccesses {es : List Access} {a : Analysis} :
    (es.foldl (fun a e => addAccess e a) a).reachable = a.reachable ∧
      ∀ h, h ∈ (es.foldl (fun a e => addAccess e a) a).hazards ↔
        h ∈ a.hazards ∨ ∃ e ∈ es, e.start = none ∧ h = .dynamicI e.pc e.reason := by
  induction es generalizing a with
  | nil => simp
  | cons e es ih =>
    obtain ⟨reachable, hazards⟩ := @ih (addAccess e a)
    refine ⟨reachable.trans (addAccess_reachable e a), fun h => ?_⟩
    rw [List.foldl_cons, hazards, mem_addAccess_hazards, List.exists_mem_cons_iff, or_assoc]

theorem record_adds {pc : Nat} {returns : List Nat} {s : Statement}
    (found : instructionAt statements pc = some s) (σ : Constants) (a : Analysis) :
    (∀ code, code ∈ (record U labels statements (pc, returns) σ a).reachable ↔
      code ∈ a.reachable ∨ code = pc) ∧
    ∀ h, h ∈ (record U labels statements (pc, returns) σ a).hazards ↔
      h ∈ a.hazards ∨ Meets U labels s returns h ∨
        ∃ e ∈ requestsAt U labels statements pc σ, e.start = none ∧
          h = .dynamicI e.pc e.reason := by
  have folded : ((transfer U labels s σ).elim [] Prod.snd).foldl
      (fun a q => addAccess ⟨pc, q.kind, q.start, q.length, q.reason⟩ a)
      { a with reachable := a.reachable.insert pc } =
      (requestsAt U labels statements pc σ).foldl (fun a e => addAccess e a)
        { a with reachable := a.reachable.insert pc } := by
    unfold requestsAt
    rw [found, List.foldl_map]
  obtain ⟨reachable, hazards⟩ := @addAccesses (requestsAt U labels statements pc σ)
    { a with reachable := a.reachable.insert pc }
  unfold record
  rw [found]
  dsimp only
  rw [folded, addHazards_reachable, reachable]
  constructor
  · intro code
    rw [List.mem_insert_iff, or_comm]
  · intro h
    rw [mem_addHazards, hazards, mem_transitions_hazards]
    exact or_assoc.trans (or_congr_right or_comm)

/-- The reasons of the accesses. -/
def reasons : List String := ["BCD store", "register store", "register load", "sprite read"]

theorem transferLoad_reasons {a b : Token} {σ : Constants} {r : Constants × List Request}
    (moved : transferLoad U labels a b σ = some r) : ∀ q ∈ r.2, q.reason ∈ reasons := by
  have nothing {τ : Constants} (same : (τ, []) = r) : ∀ q ∈ r.2, q.reason ∈ reasons := by
    cases same
    exact nofun
  have asks {q : Request} (known : q.reason ∈ reasons) (same : (σ, [q]) = r) :
      ∀ q ∈ r.2, q.reason ∈ reasons := by
    cases same
    exact List.forall_mem_singleton.mpr known
  unfold transferLoad at moved
  split at moved
  · exact nothing (Option.some.inj moved)
  split at moved
  · obtain ⟨x, -, moved⟩ := Option.bind_eq_some_iff.mp moved
    obtain ⟨v, -, moved⟩ := Option.bind_eq_some_iff.mp moved
    exact nothing (Option.some.inj moved)
  split at moved
  · exact nothing (Option.some.inj moved)
  split at moved
  · exact asks (show "BCD store" ∈ reasons by decide) (Option.some.inj moved)
  split at moved
  · obtain ⟨x, -, moved⟩ := Option.bind_eq_some_iff.mp moved
    exact asks (show "register store" ∈ reasons by decide) (Option.some.inj moved)
  split at moved
  · obtain ⟨x, -, moved⟩ := Option.bind_eq_some_iff.mp moved
    exact asks (show "register load" ∈ reasons by decide) (Option.some.inj moved)
  · exact nothing (Option.some.inj moved)

theorem transferAdd_silent {a b : Token} {σ : Constants} {r : Constants × List Request}
    (moved : transferAdd U labels a b σ = some r) : r.2 = [] := by
  unfold transferAdd at moved
  split at moved
  · dsimp only at moved
    split at moved
    · obtain ⟨v, -, moved⟩ := Option.bind_eq_some_iff.mp moved
      cases moved
      rfl
    · cases moved
      rfl
  split at moved
  · obtain ⟨x, -, moved⟩ := Option.bind_eq_some_iff.mp moved
    obtain ⟨v, -, moved⟩ := Option.bind_eq_some_iff.mp moved
    cases moved
    rfl
  · cases moved
    rfl

theorem transfer_reasons {s : Statement} {σ : Constants} {r : Constants × List Request}
    (moved : transfer U labels s σ = some r) : ∀ q ∈ r.2, q.reason ∈ reasons := by
  -- The invalidation of the first operand, which comes last, accesses nothing.
  have behind {o : Option (Constants × List Request)} {a : Token}
      (known : ∀ r', o = some r' → ∀ q ∈ r'.2, q.reason ∈ reasons)
      (moved : (o.bind fun r' => if (clobbers.any fun m => s.op == some m.text) && startsWithV a then
        (registerIndex U a).bind fun x => some (r'.1.setReg x none, r'.2) else some r') = some r) :
      ∀ q ∈ r.2, q.reason ∈ reasons := by
    obtain ⟨r', first, moved⟩ := Option.bind_eq_some_iff.mp moved
    have same : r.2 = r'.2 := by
      split at moved
      · obtain ⟨x, -, moved⟩ := Option.bind_eq_some_iff.mp moved
        cases moved
        rfl
      · cases moved
        rfl
    rw [same]
    exact known r' first
  have silent (r' : Constants × List Request) (same : some (σ, []) = some r') :
      ∀ q ∈ r'.2, q.reason ∈ reasons := by
    cases same
    exact nofun
  unfold transfer at moved
  cases args : s.args with
  | nil =>
    rw [args] at moved
    exact silent r moved
  | cons a rest =>
    rw [args] at moved
    cases rest with
    | nil => exact behind silent moved
    | cons b rest =>
      cases rest with
      | nil =>
        dsimp only at moved
        split at moved
        · exact behind (fun r' first => transferLoad_reasons first) moved
        split at moved
        · exact behind (fun r' first => by rw [transferAdd_silent first]; exact nofun) moved
        · exact behind silent moved
      | cons c rest =>
        cases rest with
        | nil =>
          dsimp only at moved
          split at moved
          · refine behind (fun r' first => ?_) moved
            cases first
            exact List.forall_mem_singleton.mpr (show "sprite read" ∈ reasons by decide)
          · exact behind silent moved
        | cons d rest => exact behind silent moved

theorem requestsAt_reasons {pc : Nat} {σ : Constants} :
    ∀ e ∈ requestsAt U labels statements pc σ, e.pc = pc ∧ e.reason ∈ reasons := by
  intro e asked
  unfold requestsAt at asked
  split at asked
  · cases asked
  · rename_i s found
    obtain ⟨q, inside, rfl⟩ := List.mem_map.mp asked
    cases moved : transfer U labels s σ with
    | none =>
      rw [moved] at inside
      cases inside
    | some r =>
      rw [moved] at inside
      exact ⟨rfl, transfer_reasons moved q inside⟩

/-! ## The loop -/

/-- What is recorded comes from what control gets to, and a settled context has been recorded. -/
structure Flagged (U : Unicode) (labels : Labels) (statements : List Statement) (p : Progress) :
    Prop where
  entered : ∀ c ∈ p.table.work, Entered U labels statements c
  listed : ∀ c σ, p.table.incoming c = some σ → c ∉ p.table.work → ∀ s,
    instructionAt statements c.1 = some s → c.1 ∈ p.result.reachable ∧
      ∀ h, Meets U labels s c.2 h → h ∈ p.result.hazards
  reached : ∀ pc ∈ p.result.reachable, ∃ s returns, Gets U labels statements s pc returns
  known : ∀ h ∈ p.result.hazards,
    (∃ s pc returns, Gets U labels statements s pc returns ∧ Meets U labels s returns h) ∨
      ∃ e ∈ p.result.accesses, e.start = none ∧ h = .dynamicI e.pc e.reason
  dynamic : ∀ e ∈ p.result.accesses, e.start = none → .dynamicI e.pc e.reason ∈ p.result.hazards
  made : ∀ e ∈ p.result.accesses, e.start = none →
    (∃ s returns, Gets U labels statements s e.pc returns) ∧ e.reason ∈ reasons

theorem flagged_start : Flagged U labels statements .start where
  entered c here := by
    have work : Progress.start.table.work = [(entry, [])] := rfl
    rw [work] at here
    rw [List.mem_singleton.mp here]
    exact .refl
  listed c σ here idle := by
    have other : c ≠ (entry, []) := fun same => idle (same ▸ List.mem_cons_self)
    rw [start_incoming, if_neg other] at here
    cases here
  reached pc here := absurd here List.not_mem_nil
  known h here := absurd here List.not_mem_nil
  dynamic e here := absurd here List.not_mem_nil
  made e here := absurd here List.not_mem_nil

theorem accessEntry_none {request e : Access} (kept : accessEntry request = some e) :
    e.start = none ↔ request.start = none ∧ request = e := by
  unfold accessEntry at kept
  cases start : request.start with
  | none =>
    rw [start] at kept
    cases kept
    exact ⟨fun none => ⟨rfl, rfl⟩, fun _ => start⟩
  | some v =>
    rw [start] at kept
    dsimp only at kept
    refine ⟨fun none => ?_, fun other => nomatch other.1⟩
    split at kept
    · cases kept
    split at kept
    · cases kept
      cases none
    · cases kept
      rw [start] at none
      cases none

theorem visit_flagged {p p' : Progress} (flagged : Flagged U labels statements p)
    (stepped : visit U labels statements p = some p') : Flagged U labels statements p' := by
  obtain ⟨⟨pc, returns⟩, rest, σ, out, work, here, edges, table, result⟩ := visit_eq stepped
  obtain ⟨-, -, waits, old⟩ := Worklist.relaxAll
    (@flow_lawful U labels statements) out ⟨p.table.incoming, rest⟩
  have entered : Entered U labels statements (pc, returns) :=
    flagged.entered _ (work ▸ List.mem_cons_self)
  have entered' : ∀ c ∈ p'.table.work, Entered U labels statements c := by
    intro c waiting
    rw [table] at waiting
    obtain before | ⟨e, passed, rfl⟩ := Worklist.relaxAll_work waiting
    · exact flagged.entered c (work ▸ List.mem_cons_of_mem _ before)
    · obtain ⟨s, r, t, found, -, next, dest, rfl⟩ := mem_passOn edges passed
      exact entered.tail ⟨s, found, t, next, dest, rfl⟩
  -- A settled context was settled before, or is the one that was visited.
  have settled : ∀ c σ', p'.table.incoming c = some σ' → c ∉ p'.table.work →
      c = (pc, returns) ∨ p.table.incoming c = some σ' ∧ c ∉ p.table.work := by
    intro c σ' there idle
    rw [table] at there idle
    rw [old c idle] at there
    by_cases popped : c = (pc, returns)
    · exact .inl popped
    · refine .inr ⟨there, fun waiting => ?_⟩
      rw [work] at waiting
      exact idle (waits c ((List.mem_cons.mp waiting).resolve_left popped))
  cases found : instructionAt statements pc with
  | none =>
    have same : p'.result = p.result := by
      rw [result]
      unfold record
      rw [found]
    refine ⟨entered', ?_, same ▸ flagged.reached, same ▸ flagged.known, same ▸ flagged.dynamic,
      same ▸ flagged.made⟩
    intro c σ' there idle s isInsn
    rw [same]
    obtain rfl | ⟨there, idle⟩ := settled c σ' there idle
    · rw [found] at isInsn
      cases isInsn
    · exact flagged.listed c σ' there idle s isInsn
  | some s =>
    obtain ⟨reachable, hazards⟩ := @record_adds U labels statements pc returns s found σ p.result
    have accesses := @record_accesses U labels statements (pc, returns) σ p.result
    rw [← result] at reachable hazards accesses
    have gets : Gets U labels statements s pc returns := ⟨entered, found⟩
    refine ⟨entered', ?_, ?_, ?_, ?_, ?_⟩
    · intro c σ' there idle s' isInsn
      obtain rfl | ⟨there, idle⟩ := settled c σ' there idle
      · cases found.symm.trans isInsn
        exact ⟨(reachable pc).mpr (.inr rfl), fun h meets => (hazards h).mpr (.inr (.inl meets))⟩
      · obtain ⟨before, known⟩ := flagged.listed c σ' there idle s' isInsn
        exact ⟨(reachable _).mpr (.inl before), fun h meets => (hazards h).mpr (.inl (known h meets))⟩
    · intro code there
      obtain before | rfl := (reachable code).mp there
      · exact flagged.reached code before
      · exact ⟨s, returns, gets⟩
    · intro h there
      obtain before | meets | ⟨e, asked, unknown, rfl⟩ := (hazards h).mp there
      · obtain control | ⟨e, inside, unknown, same⟩ := flagged.known h before
        · exact .inl control
        · exact .inr ⟨e, accesses ▸ List.mem_append_left _ inside, unknown, same⟩
      · exact .inl ⟨s, pc, returns, gets, meets⟩
      · refine .inr ⟨e, accesses ▸ List.mem_append_right _ ?_, unknown, rfl⟩
        refine List.mem_filterMap.mpr ⟨e, asked, ?_⟩
        unfold accessEntry
        rw [unknown]
    · intro e inside unknown
      rw [accesses] at inside
      obtain before | now := List.mem_append.mp inside
      · exact (hazards _).mpr (.inl (flagged.dynamic e before unknown))
      · obtain ⟨request, asked, kept⟩ := List.mem_filterMap.mp now
        obtain ⟨unknown', rfl⟩ := (accessEntry_none kept).mp unknown
        exact (hazards _).mpr (.inr (.inr ⟨request, asked, unknown', rfl⟩))
    · intro e inside unknown
      rw [accesses] at inside
      obtain before | now := List.mem_append.mp inside
      · exact flagged.made e before unknown
      · obtain ⟨request, asked, kept⟩ := List.mem_filterMap.mp now
        obtain ⟨-, rfl⟩ := (accessEntry_none kept).mp unknown
        obtain ⟨samePc, known⟩ := requestsAt_reasons request asked
        exact ⟨⟨s, returns, samePc ▸ gets⟩, known⟩

theorem fixpoint_flagged : Flagged U labels statements (fixpoint U labels statements) :=
  Run.finish_invariant (fun _ _ => visit_flagged) flagged_start

/-! ## The writes -/

/-- What a write is a hazard for. -/
def Endangers (statements : List Statement) (a : Analysis) (e : Access) (h : Hazard) : Prop :=
  ∃ start length, e.Writes start length ∧
    ((start < payloadEnd statements ∧ (entry : Int) < start + length) ∧
        h = .payloadWrite e.pc start ∨
      ∃ code ∈ a.reachable, (start ≤ code ∧ (code : Int) < start + length) ∧
        h = .selfModifying e.pc code)

theorem mem_writeHazard {a : Analysis} {e : Access} :
    (writeHazard statements a e).reachable = a.reachable ∧
      ∀ h, h ∈ (writeHazard statements a e).hazards ↔
        h ∈ a.hazards ∨ Endangers statements a e h := by
  -- Where the access is no write of a known range nothing is added.
  have other (none : ∀ start length, ¬ e.Writes start length) :
      a.reachable = a.reachable ∧ ∀ h, h ∈ a.hazards ↔ h ∈ a.hazards ∨ Endangers statements a e h :=
    ⟨rfl, fun h => ⟨.inl, fun either => either.resolve_right
      fun ⟨start, length, writes, _⟩ => none start length writes⟩⟩
  unfold writeHazard
  split
  · rename_i start length isStart isLength
    split
    · rename_i isWrite
      have writes : e.Writes start length := ⟨beq_iff_eq.mp isWrite, isStart, isLength⟩
      have only : ∀ start' length', e.Writes start' length' → start' = start ∧ length' = length :=
        fun start' length' writes' => ⟨Option.some.inj (writes'.2.1.symm.trans isStart),
          Option.some.inj (writes'.2.2.symm.trans isLength)⟩
      obtain ⟨b, isB⟩ : ∃ b : Analysis, b =
          if start < payloadEnd statements && start + length > (entry : Int) then
            a.addHazard (.payloadWrite e.pc start) else a := ⟨_, rfl⟩
      have reachable : b.reachable = a.reachable := by
        rw [isB]
        split <;> rfl
      -- The first hazard is for the ROM's range, the others for the code in it.
      have payload : ∀ h, h ∈ b.hazards ↔ h ∈ a.hazards ∨
          (start < payloadEnd statements ∧ (entry : Int) < start + length) ∧
            h = .payloadWrite e.pc start := by
        intro h
        rw [isB]
        split
        · rename_i inside
          simp only [Bool.and_eq_true, decide_eq_true_eq] at inside
          show h ∈ a.hazards.insert _ ↔ _
          rw [List.mem_insert_iff, or_comm, and_iff_right ⟨inside.1, inside.2⟩]
        · rename_i outside
          simp only [Bool.and_eq_true, decide_eq_true_eq] at outside
          exact ⟨.inl, fun either => either.resolve_right fun other =>
            outside ⟨other.1.1, other.1.2⟩⟩
      dsimp only
      rw [← isB, ← List.foldl_map, addHazards_reachable]
      refine ⟨reachable, fun h => ?_⟩
      rw [mem_addHazards, payload, or_assoc]
      refine or_congr_right ⟨?_, ?_⟩
      · rintro (first | codes)
        · exact ⟨start, length, writes, .inl first⟩
        · obtain ⟨code, inside, rfl⟩ := List.mem_map.mp codes
          obtain ⟨reached, between⟩ := List.mem_filter.mp inside
          simp only [Bool.and_eq_true, decide_eq_true_eq] at between
          exact ⟨start, length, writes, .inr ⟨code, reachable ▸ reached, between, rfl⟩⟩
      · rintro ⟨start', length', writes', what⟩
        obtain ⟨rfl, rfl⟩ := only start' length' writes'
        refine what.imp id ?_
        rintro ⟨code, reached, between, rfl⟩
        refine List.mem_map.mpr ⟨code, List.mem_filter.mpr ⟨reachable ▸ reached, ?_⟩, rfl⟩
        simp only [Bool.and_eq_true, decide_eq_true_eq]
        exact between
    · rename_i notWrite
      exact other fun start length writes => notWrite (beq_iff_eq.mpr writes.1)
  · rename_i unknown
    exact other fun start length writes => unknown start length writes.2.1 writes.2.2

theorem mem_writeHazards {a : Analysis} {h : Hazard} :
    h ∈ (writeHazards statements a).hazards ↔
      h ∈ a.hazards ∨ ∃ e ∈ a.accesses, Endangers statements a e h := by
  suffices all : ∀ (es : List Access) (b : Analysis), b.reachable = a.reachable →
      (h ∈ (es.foldl (writeHazard statements) b).hazards ↔
        h ∈ b.hazards ∨ ∃ e ∈ es, Endangers statements a e h) from all a.accesses a rfl
  intro es
  induction es with
  | nil => simp
  | cons e es ih =>
    intro b same
    obtain ⟨reachable, hazards⟩ := @mem_writeHazard statements b e
    rw [List.foldl_cons, ih _ (reachable.trans same), hazards, List.exists_mem_cons_iff, or_assoc]
    unfold Endangers
    rw [same]

theorem mem_hazards {a : Analysis} (analyzed : analyze U labels statements = some a) {h : Hazard} :
    h ∈ a.hazards ↔ Arises U labels statements a h := by
  obtain ⟨empty, rfl⟩ := analyze_eq analyzed
  have flagged := @fixpoint_flagged U labels statements
  have closed := states_postFixpoint empty
  -- What control gets to was visited, and a visit records what it meets.
  have onward : ∀ s pc returns, Gets U labels statements s pc returns →
      pc ∈ (fixpoint U labels statements).result.reachable ∧
        ∀ h, Meets U labels s returns h → h ∈ (fixpoint U labels statements).result.hazards := by
    rintro s pc returns ⟨entered, found⟩
    obtain ⟨σ, here⟩ := closed.entered entered
    exact flagged.listed (pc, returns) σ here (by rw [empty]; exact List.not_mem_nil) s found
  -- The three places a hazard is recorded: a visit, an access, a known write.
  have whole : h ∈ (writeHazards statements (fixpoint U labels statements).result).hazards ↔
      (∃ s pc returns, Gets U labels statements s pc returns ∧ Meets U labels s returns h) ∨
        (∃ e ∈ (fixpoint U labels statements).result.accesses, e.start = none ∧
          h = .dynamicI e.pc e.reason) ∨
        ∃ e ∈ (fixpoint U labels statements).result.accesses,
          Endangers statements (fixpoint U labels statements).result e h := by
    rw [mem_writeHazards, ← or_assoc]
    refine or_congr_left ⟨flagged.known h, ?_⟩
    rintro (⟨s, pc, returns, gets, meets⟩ | ⟨e, inside, unknown, rfl⟩)
    · exact (onward s pc returns gets).2 h meets
    · exact flagged.dynamic e inside unknown
  have reached : ∀ code, code ∈ (fixpoint U labels statements).result.reachable ↔
      ∃ s returns, Gets U labels statements s code returns := fun code =>
    ⟨flagged.reached code, fun ⟨s, returns, gets⟩ => (onward s code returns gets).1⟩
  rw [whole]
  unfold Arises Endangers
  rw [(writeHazards_keeps _).1]
  simp only [reached]
  -- Each kind of hazard comes from one of the three only.
  cases h with
  | dynamicI pc reason =>
    constructor
    · rintro (⟨_, _, _, _, meets⟩ | ⟨e, inside, unknown, same⟩ | ⟨_, _, _, _, _, other⟩)
      · cases meets
      · cases same
        exact ⟨e, inside, unknown, rfl, rfl⟩
      · simp at other
    · rintro ⟨e, inside, unknown, rfl, rfl⟩
      exact .inr (.inl ⟨e, inside, unknown, rfl⟩)
  | payloadWrite pc start =>
    constructor
    · rintro (⟨_, _, _, _, meets⟩ | ⟨_, _, _, other⟩ | ⟨e, inside, _, length, writes, ⟨inRom, same⟩ | other⟩)
      · cases meets
      · cases other
      · cases same
        exact ⟨e, inside, rfl, length, writes, inRom⟩
      · simp at other
    · rintro ⟨e, inside, rfl, length, writes, inRom⟩
      exact .inr (.inr ⟨e, inside, start, length, writes, .inl ⟨inRom, rfl⟩⟩)
  | selfModifying pc code =>
    constructor
    · rintro (⟨_, _, _, _, meets⟩ | ⟨_, _, _, other⟩ |
        ⟨e, inside, start, length, writes, ⟨_, other⟩ | ⟨_, gets, between, same⟩⟩)
      · cases meets
      · cases other
      · cases other
      · cases same
        exact ⟨e, inside, rfl, start, length, writes, between.1, between.2, gets⟩
    · rintro ⟨e, inside, rfl, start, length, writes, low, high, gets⟩
      exact .inr (.inr ⟨e, inside, start, length, writes, .inr ⟨code, gets, ⟨low, high⟩, rfl⟩⟩)
  | _ => simp

/-! ## Texts -/

theorem number_digits {w n : Nat} : ∀ c ∈ number w n, c ∈ "0123456789ABCDEFx".toList := by
  have digits : ∀ d < 16, Disas.hexDigit d ∈ "0123456789ABCDEFx".toList := by decide
  intro c here
  obtain rfl | rfl | here : c = '0' ∨ c = 'x' ∨ c ∈ hex w n := by
    simpa [number] using here
  · decide
  · decide
  · obtain ⟨d, small, rfl⟩ := Disas.hex_digits here
    exact digits d small

theorem infix_behind {c : Char} {part front back : Text} (apart : c ∉ front) :
    c :: part <:+: front ++ back ↔ c :: part <:+: back := by
  induction front with
  | nil => rfl
  | cons d front ih =>
    rw [List.mem_cons, not_or] at apart
    rw [List.cons_append, List.infix_cons_iff, ih apart.2]
    refine ⟨fun either => either.resolve_left fun inFront => ?_, .inr⟩
    exact apart.1 (List.cons_prefix_cons.mp inFront).1

theorem infix_before {c : Char} {part front back : Text} (apart : c ∉ back) :
    part ++ [c] <:+: front ++ back ↔ part ++ [c] <:+: front := by
  rw [← List.reverse_infix, List.reverse_append, List.reverse_append, List.reverse_singleton,
    List.singleton_append, infix_behind fun here => apart (List.mem_reverse.mp here),
    ← @List.reverse_infix _ _ front, List.reverse_append, List.reverse_singleton]
  rfl

theorem infix_between {part middle back : Text} {n : Nat} (some : part ≠ [])
    (back_digits : ∀ c ∈ back, c ∈ "0123456789ABCDEFx".toList)
    (clean : ∀ c ∈ part, c ∉ "0123456789ABCDEFx".toList) :
    part <:+: number 3 n ++ (middle ++ back) ↔ part <:+: middle := by
  obtain ⟨c, rest, rfl⟩ := List.exists_cons_of_ne_nil some
  rw [infix_behind fun here => clean c List.mem_cons_self (number_digits c here)]
  obtain nil | ⟨start, last, whole⟩ := List.eq_nil_or_concat' (c :: rest)
  · exact absurd nil some
  · rw [whole]
    refine infix_before fun here => clean last ?_ (back_digits last here)
    rw [whole]
    exact List.mem_append_right _ List.mem_cons_self

theorem int_number {n : Nat} (small : n < limit) (behind : Text) :
    int U 16 (((number 3 n ++ behind).drop 2).take 3) = some (n : Int) := by
  have digits : ((number 3 n ++ behind).drop 2).take 3 = hex 3 n :=
    List.take_left' (Disas.hex_length 3 n)
  have isDigit : ∀ d < 16, Asm.isxdigit (Disas.hexDigit d) = true := by decide
  have all : ∀ c ∈ hex 3 n, Asm.isxdigit c = true := by
    intro c here
    obtain ⟨d, low, rfl⟩ := Disas.hex_digits here
    exact isDigit d low
  obtain ⟨unsigned, bare, -⟩ := unsigned_hexadecimal all
  have value := Disas.numeralFrom_hex (w := 3) (n := n) small 0 []
  rw [List.append_nil, Nat.zero_mul, Nat.zero_add] at value
  rw [digits, int_plain U (plain_hexadecimal all) unsigned bare]
  unfold Asm.numeral
  rw [if_neg (by rw [hex]; simp), value]
  rfl

/-- The text of a hazard between its numbers. -/
def Hazard.words : Hazard → Text
  | .computedJump _ => ": computed JP V0".toList
  | .unresolvedJump _ => ": unresolved JP target".toList
  | .unresolvedCall _ => ": unresolved CALL target".toList
  | .deepStack _ => ": call stack exceeds 16 levels".toList
  | .dynamicI _ reason => ": dynamic I for ".toList ++ reason.toList
  | .payloadWrite _ _ => ": write into ROM payload at ".toList
  | .selfModifying _ _ => ": possible self-modifying write at ".toList

theorem mentions_words {part : String}
    (isPart : part ∈ ["dynamic I", "self-modifying", "computed JP"]) (h : Hazard) :
    h.mentions part = decide (part.toList <:+: h.words) := by
  have parts : ∀ part ∈ ["dynamic I", "self-modifying", "computed JP"], part.toList ≠ [] ∧
      ∀ c ∈ part.toList, c ∉ "0123456789ABCDEFx".toList := by decide
  obtain ⟨some, clean⟩ := parts part isPart
  have behind {n : Nat} {middle : Text} :
      part.toList <:+: number 3 n ++ middle ↔ part.toList <:+: middle := by
    have between := @infix_between part.toList middle [] n some nofun clean
    rwa [List.append_nil] at between
  unfold Hazard.mentions
  rw [decide_eq_decide]
  cases h with
  | payloadWrite pc start => exact infix_between some number_digits clean
  | selfModifying pc code => exact infix_between some number_digits clean
  | _ => exact behind

/-- The choice, given whether the address of a dynamic access is proven. -/
def Hazard.chooses (isProven : Bool) (h : Hazard) : Bool :=
  "dynamic I".toList <:+: h.words && !isProven || "self-modifying".toList <:+: h.words ||
    "computed JP".toList <:+: h.words

theorem chooses_dynamic : ∀ reason ∈ reasons, ∀ isProven,
    (Hazard.dynamicI 0 reason).chooses isProven = !isProven := by
  decide +kernel

theorem chooses_other : ∀ h ∈ [Hazard.computedJump 0, .unresolvedJump 0, .unresolvedCall 0,
    .deepStack 0, .payloadWrite 0 0, .selfModifying 0 0], ∀ isProven,
    h.chooses isProven = h.blocks [] := by
  decide +kernel

theorem chosen_eq {h : Hazard} {proven : List Nat}
    (small : ∀ pc reason, h = .dynamicI pc reason → pc < limit ∧ reason ∈ reasons) :
    h.chosen U proven = h.blocks proven := by
  have words : h.chosen U proven = h.chooses (proven.any fun n =>
      int U 16 ((h.text.drop 2).take 3) == some (n : Int)) := by
    unfold Hazard.chosen Hazard.chooses
    rw [@mentions_words "dynamic I" List.mem_cons_self,
      @mentions_words "self-modifying" (List.mem_cons_of_mem _ List.mem_cons_self),
      @mentions_words "computed JP"
        (List.mem_cons_of_mem _ (List.mem_cons_of_mem _ List.mem_cons_self))]
  rw [words]
  generalize listed : (proven.any fun n => int U 16 ((h.text.drop 2).take 3) == some (n : Int)) = b
  cases h with
  | dynamicI pc reason =>
    obtain ⟨low, known⟩ := small pc reason rfl
    have digits := @int_number U pc low (": dynamic I for ".toList ++ reason.toList)
    have same : b = proven.contains pc := by
      rw [← listed, Bool.eq_iff_iff, List.any_eq_true, List.contains_iff_mem]
      show (∃ n ∈ proven, (int U 16 (((number 3 pc ++ _).drop 2).take 3) == _) = true) ↔ _
      rw [digits]
      simp
    show (Hazard.dynamicI 0 reason).chooses b = !proven.contains pc
    rw [← same]
    exact chooses_dynamic reason known b
  | computedJump pc => exact chooses_other (.computedJump 0) (by simp) b
  | unresolvedJump pc => exact chooses_other (.unresolvedJump 0) (by simp) b
  | unresolvedCall pc => exact chooses_other (.unresolvedCall 0) (by simp) b
  | deepStack pc => exact chooses_other (.deepStack 0) (by simp) b
  | payloadWrite pc start => exact chooses_other (.payloadWrite 0 0) (by simp) b
  | selfModifying pc code => exact chooses_other (.selfModifying 0 0) (by simp) b

theorem Gets.small {s : Statement} {pc : Nat} {returns : List Nat}
    (gets : Gets U labels statements s pc returns) : pc < limit := by
  obtain ⟨entered, -⟩ := gets
  cases entered with
  | refl => decide
  | tail _ passes =>
    obtain ⟨_, _, t, _, dest, same⟩ := passes
    unfold inMemory at dest
    simp only [Bool.and_eq_true, decide_eq_true_eq] at dest
    have here : pc = t.1.toNat := congrArg Prod.fst same
    omega

theorem hazards_chosen {a : Analysis} (analyzed : analyze U labels statements = some a)
    {h : Hazard} (here : h ∈ a.hazards) (proven : List Nat) :
    h.chosen U proven = h.blocks proven := by
  refine chosen_eq fun pc reason isDynamic => ?_
  rw [isDynamic] at here
  obtain ⟨e, inside, unknown, rfl, rfl⟩ := (mem_hazards analyzed).mp here
  obtain ⟨-, rfl⟩ := analyze_eq analyzed
  rw [(writeHazards_keeps _).1] at inside
  obtain ⟨⟨s, returns, gets⟩, known⟩ := fixpoint_flagged.made e inside unknown
  exact ⟨gets.small, known⟩

end

end ChipEight.Opt
