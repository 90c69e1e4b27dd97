import ChipEight.Disas.Reencode
import ChipEight.Jit.Coherence
import ChipEight.Library.Ledger
import Mathlib.Data.Fintype.Card

/-! The native code the JITs hold: `trace_results` and `trace_resources`.

A compilation leaves a result behind that owns the code of its trace. Results are remembered so
that a flush and the teardown can release them. The code of a trace is called through the cache
only, and that must not outlive the result; in LLVM a symbol must not be defined twice either,
since `ExitOnErr` then ends the process.
-/

set_option autoImplicit false

namespace ChipEight.Jit

open Disas (hex hex_inj hex_length)

/-! ## Symbols -/

/-- `%0X` drops the zeros in front, all but the last. -/
def unpadded (digits : List Char) : List Char :=
  let rest := digits.dropWhile (· == '0')
  if rest.isEmpty then ['0'] else rest

/-- `fn_name`: `ADDR%04X` in libgccjit_jit.c, `ADDR%0X` in llvm_jit.cpp. -/
def fnName (backend : Backend) (pc : Word) : List Char :=
  ['A', 'D', 'D', 'R'] ++ match backend with
    | .libgccjit => hex 4 pc.toNat
    | .llvm => unpadded (hex 4 pc.toNat)

theorem unpadded_leftpad {digits : List Char} (some : digits ≠ []) :
    (unpadded digits).leftpad digits.length '0' = digits := by
  have whole := List.takeWhile_append_dropWhile (p := (· == '0')) (l := digits)
  have zeros : digits.takeWhile (· == '0') =
      List.replicate (digits.takeWhile (· == '0')).length '0' :=
    List.eq_replicate_of_mem fun c here =>
      beq_iff_eq.mp (@List.mem_takeWhile_imp _ (· == '0') digits c here)
  have count := congrArg List.length whole
  rw [List.length_append] at count
  unfold unpadded List.leftpad
  dsimp only
  split
  · rename_i empty
    rw [List.isEmpty_iff] at empty
    rw [empty, List.append_nil] at whole
    obtain ⟨n, positive⟩ := Nat.exists_eq_succ_of_ne_zero (List.length_pos_iff.mpr some).ne'
    rw [whole, positive] at zeros
    rw [positive, zeros]
    exact (List.replicate_succ' (n := n) (a := '0')).symm
  · rw [← count, Nat.add_sub_cancel, ← zeros]
    exact whole

theorem fnName_injective (backend : Backend) {pc pc' : Word}
    (same : fnName backend pc = fnName backend pc') : pc = pc' := by
  have digits := List.append_cancel_left same
  have longs (pc : Word) : (hex 4 pc.toNat).length = 4 := hex_length _ _
  have some (pc : Word) : hex 4 pc.toNat ≠ [] := by
    intro empty
    have four := longs pc
    rw [empty] at four
    cases four
  have small (pc : Word) : pc.toNat < 16 ^ 4 := pc.isLt
  apply BitVec.eq_of_toNat_eq
  apply hex_inj (small pc) (small pc')
  cases backend with
  | libgccjit => exact digits
  | llvm =>
    have same : unpadded (hex 4 pc.toNat) = unpadded (hex 4 pc'.toNat) := digits
    calc
      hex 4 pc.toNat = (unpadded (hex 4 pc.toNat)).leftpad 4 '0' := by
        conv_lhs => rw [← unpadded_leftpad (some pc), longs]
      _ = (unpadded (hex 4 pc'.toNat)).leftpad 4 '0' := by rw [same]
      _ = hex 4 pc'.toNat := by conv_rhs => rw [← unpadded_leftpad (some pc'), longs]

/-! ## The main loop with its results -/

/-- A dispatcher and what its back end holds. A cached trace is given by the number of the result
its code belongs to. -/
structure Owner (E : Type) where
  dispatcher : Dispatcher E
  ledger : Ledger
  /-- `cap_trace_results`. -/
  capacity : Nat
  /-- The result `trace_cache [pc]` points into. -/
  cached : Word → Option Nat
  /-- The symbol a result defines. -/
  symbol : Nat → List Char
  /-- The result whose code is being executed. -/
  calling : Option Nat
  /-- LLVM found the symbol of a new trace defined already. -/
  clashed : Bool
  tornDown : Bool

def Owner.start {E : Type} (vm : VM) (env : E) : Owner E where
  dispatcher := Jit.start vm env
  ledger := .empty
  capacity := 0
  cached := fun _ => none
  symbol := fun _ => []
  calling := none
  clashed := false
  tornDown := false

namespace Owner

section
variable {E : Type} (P : Host E) (b : Build) (grows : Nat → Bool)

/-- `remember_result`, where `grows` tells which calls of `realloc` succeed; LLVM's is a vector. -/
def remember (o : Owner E) : Owner E :=
  match b.backend with
  | .llvm => { o with ledger := o.ledger.hold }
  | .libgccjit =>
    if o.ledger.held.length = o.capacity then
      if grows o.ledger.made then { o with
        ledger := o.ledger.hold
        capacity := if o.capacity ≠ 0 then o.capacity * 2 else 64 }
      else { o with ledger := o.ledger.lose }
    else { o with ledger := o.ledger.hold }

/-- The symbols of the results that have not been released. -/
def symbols (o : Owner E) : List (List Char) := o.ledger.held.map o.symbol

/-- The entry of a new trace into the cache, and of its symbol into LLVM's table. -/
def enter (d : Dispatcher E) (o : Owner E) : Owner E :=
  let pc := o.dispatcher.machine.vm.programCounter
  let name := fnName b.backend pc
  { o with
    dispatcher := d
    cached := Function.update o.cached pc (some o.ledger.made)
    symbol := Function.update o.symbol o.ledger.made name
    clashed := o.clashed || (b.backend == .llvm && o.symbols.contains name) }

/-- The call of `codegen` in the main loop, and what it does with the code returned. -/
def compile (o : Owner E) : Owner E :=
  let d := o.dispatcher.compile b
  match d.position with
  | .top => remember b grows (o.enter b d)
  | _ => { o with dispatcher := d }

/-- Release every result: the flush of the main loop, and `teardown_jit`. -/
def releaseAll (o : Owner E) : Owner E := { o with ledger := o.ledger.releaseAll, capacity := 0 }

/-- The main loop from the return of a trace on. -/
def service (o : Owner E) : Owner E :=
  let flushed := if o.dispatcher.machine.smcPending then
    { o.releaseAll with cached := fun _ => none } else o
  { flushed with dispatcher := o.dispatcher.service P, calling := none }

/-- `teardown_jit`; LLVM's clears the cache as well. -/
def teardown (o : Owner E) : Owner E := { o.releaseAll with
  cached := if b.backend = .llvm then fun _ => none else o.cached
  tornDown := true }

/-- A step of the dispatcher, or the teardown behind its last one; `errer` exits without. -/
def step (o : Owner E) : Option (Owner E) :=
  match o.dispatcher.position with
  | .top =>
    match o.dispatcher.cache o.dispatcher.machine.vm.programCounter with
    | none => some (o.compile b grows)
    | some _ => (o.dispatcher.step P b).map fun d => { o with
        dispatcher := d
        calling := o.cached o.dispatcher.machine.vm.programCounter }
  | .running _ _ | .backedge _ _ =>
    (o.dispatcher.step P b).map fun d => { o with dispatcher := d }
  | .returned => some (o.service P)
  | .stopped .errer | .stopped .outOfFuel => none
  | .stopped .quit | .stopped .codegenFailed => if o.tornDown then none else some (o.teardown b)

end

/-! ## The invariant -/

section
variable {E : Type} {P : Host E} {b : Build} {grows : Nat → Bool}

/-- The main loop is still running: the cache and the results belong together. -/
structure Live (b : Build) (o : Owner E) : Prop where
  agrees : ∀ pc, (o.cached pc).isSome = (o.dispatcher.cache pc).isSome
  kept : ∀ pc h, o.cached pc = some h → h ∈ o.ledger.held ∨ h ∈ o.ledger.lost
  named : ∀ pc h, o.cached pc = some h → o.symbol h = fnName b.backend pc
  holder : ∀ h ∈ o.ledger.held, ∃ pc, o.cached pc = some h
  calling : ∀ t a, o.dispatcher.position = .running t a ∨ o.dispatcher.position = .backedge t a →
    ∃ h, o.calling = some h ∧ o.cached t.start = some h
  /-- A flush apart, an address is compiled once. -/
  few : ∃ pcs : List Word, pcs.Nodup ∧ (∀ pc ∈ pcs, (o.cached pc).isSome) ∧
    o.dispatcher.compiled ≤ 2 ^ 16 * o.dispatcher.flushes + pcs.length

structure Owned (b : Build) (o : Owner E) : Prop where
  coherent : Coherent b o.dispatcher
  live : o.tornDown = false → o.Live b
  ended : o.tornDown = true → o.ledger.held = [] ∧
    (o.dispatcher.position = .stopped .quit ∨ o.dispatcher.position = .stopped .codegenFailed)
  room : b.backend = .libgccjit → o.ledger.held.length ≤ o.capacity
  lost : b.backend = .llvm → o.ledger.lost = []
  clear : o.clashed = false
  counted : o.ledger.made = o.dispatcher.compiled
  bounded : o.dispatcher.compiled ≤ 2 ^ 16 * (o.dispatcher.flushes + 1)

theorem start_owned (vm : VM) (env : E) : Owned b (start vm env) where
  coherent := start_coherent b vm env
  live _ := {
    agrees := fun _ => rfl
    kept := fun _ _ found => nomatch found
    named := fun _ _ found => nomatch found
    holder := fun _ here => nomatch here
    calling := fun _ _ inside => by rcases inside with at_ | at_ <;> cases at_
    few := ⟨[], List.nodup_nil, (fun _ here => nomatch here), Nat.zero_le _⟩ }
  ended wrong := nomatch wrong
  room _ := Nat.le_refl 0
  lost _ := rfl
  clear := rfl
  counted := rfl
  bounded := Nat.zero_le _

theorem length_le_words {pcs : List Word} (distinct : pcs.Nodup) : pcs.length ≤ 2 ^ 16 := by
  have few := List.Nodup.length_le_card (distinct.map (f := BitVec.toFin) fun _ _ same =>
    BitVec.eq_of_toFin_eq same)
  rw [List.length_map, Fintype.card_fin] at few
  exact few

theorem Live.bounded {o : Owner E} (live : o.Live b) :
    o.dispatcher.compiled ≤ 2 ^ 16 * (o.dispatcher.flushes + 1) := by
  obtain ⟨pcs, distinct, -, few⟩ := live.few
  have small := length_le_words distinct
  omega

theorem inside_step {d d' : Dispatcher E} {t : Trace} {a : Word}
    (here : d.position = .running t a ∨ d.position = .backedge t a)
    (next : Dispatcher.step P b d = some d') :
    d'.cache = d.cache ∧ d'.compiled = d.compiled ∧ d'.flushes = d.flushes ∧
      ∀ u c, d'.position = .running u c ∨ d'.position = .backedge u c → u = t := by
  unfold Dispatcher.step at next
  rcases here with here | here <;> rw [here] at next
  · obtain ⟨code, -, rest⟩ := Option.bind_eq_some_iff.mp next
    split at rest
    · cases rest
      refine ⟨rfl, rfl, rfl, fun u c inside => ?_⟩
      rcases inside with at_ | at_ <;> cases at_
    · rename_i m exit ran
      cases rest
      refine ⟨rfl, rfl, rfl, fun u c inside => ?_⟩
      cases exit with
      | goto pc => rcases inside with at_ | at_ <;> cases at_; rfl
      | backedge pc => rcases inside with at_ | at_ <;> cases at_; rfl
      | ret => rcases inside with at_ | at_ <;> cases at_
  · dsimp only at next
    split at next
    · cases next
      refine ⟨rfl, rfl, rfl, fun u c inside => ?_⟩
      rcases inside with at_ | at_ <;> cases at_
    · cases next
      refine ⟨rfl, rfl, rfl, fun u c inside => ?_⟩
      rcases inside with at_ | at_ <;> cases at_
      rfl

/-! ## Steps -/

theorem remember_cases (o : Owner E) :
    ∃ l capacity, remember b grows o = { o with ledger := l, capacity := capacity } ∧
      (l = o.ledger.hold ∨ b.backend = .libgccjit ∧ l = o.ledger.lose) ∧
      (b.backend = .libgccjit → o.ledger.held.length ≤ o.capacity → l.held.length ≤ capacity) := by
  have longer : o.ledger.hold.held.length = o.ledger.held.length + 1 := List.length_append
  unfold remember
  split
  · exact ⟨_, _, rfl, .inl rfl, fun gcc => by rename_i llvm; rw [llvm] at gcc; cases gcc⟩
  · rename_i gcc
    split
    · rename_i full
      split
      · refine ⟨_, _, rfl, .inl rfl, fun _ fits => ?_⟩
        rw [longer]
        split <;> omega
      · exact ⟨_, _, rfl, .inr ⟨gcc, rfl⟩, fun _ fits => fits⟩
    · exact ⟨_, _, rfl, .inl rfl, fun _ fits => by rw [longer]; omega⟩

theorem Live.unnamed {o : Owner E} (live : o.Live b) {pc : Word}
    (miss : o.dispatcher.cache pc = none) : fnName b.backend pc ∉ o.symbols := by
  intro defined
  obtain ⟨h, held, same⟩ := List.mem_map.mp defined
  obtain ⟨pc', cached⟩ := live.holder h held
  obtain rfl : pc' = pc := fnName_injective b.backend ((live.named pc' h cached).symm.trans same)
  have found := live.agrees pc'
  rw [cached, miss] at found
  cases found

theorem Live.enter {o : Owner E} (live : o.Live b) {d : Dispatcher E} {l : Ledger} {capacity : Nat}
    (miss : o.dispatcher.cache o.dispatcher.machine.vm.programCounter = none)
    (entry : ∃ t, d.cache =
      Function.update o.dispatcher.cache o.dispatcher.machine.vm.programCounter (some t))
    (compiled : d.compiled = o.dispatcher.compiled + 1) (flushes : d.flushes = o.dispatcher.flushes)
    (here : d.position = .top)
    (grown : l = o.ledger.hold ∨ b.backend = .libgccjit ∧ l = o.ledger.lose) :
    ({ o.enter b d with ledger := l, capacity := capacity } : Owner E).Live b := by
  obtain ⟨t, entry⟩ := entry
  have unknown : o.cached o.dispatcher.machine.vm.programCounter = none := by
    have agrees := live.agrees o.dispatcher.machine.vm.programCounter
    rw [miss] at agrees
    exact Option.not_isSome_iff_eq_none.mp (by rw [agrees]; exact Bool.false_ne_true)
  have older {pc : Word} {h : Nat} (found : o.cached pc = some h) : h < o.ledger.made :=
    o.ledger.mem_made.mpr (.inr (live.kept pc h found))
  have whole (h : Nat) : h ∈ l.held ∨ h ∈ l.lost ↔
      (h ∈ o.ledger.held ∨ h ∈ o.ledger.lost) ∨ h = o.ledger.made := by
    rcases grown with rfl | ⟨-, rfl⟩
    · show h ∈ o.ledger.held ++ [o.ledger.made] ∨ h ∈ o.ledger.lost ↔ _
      rw [List.mem_append, List.mem_singleton, or_right_comm]
    · show h ∈ o.ledger.held ∨ h ∈ o.ledger.lost ++ [o.ledger.made] ↔ _
      rw [List.mem_append, List.mem_singleton, or_assoc]
  unfold Owner.enter
  generalize o.dispatcher.machine.vm.programCounter = pc at miss entry unknown ⊢
  -- An entry is the new one, or it was there before.
  have cases {pc' : Word} {h : Nat}
      (found : Function.update o.cached pc (some o.ledger.made) pc' = some h) :
      pc' = pc ∧ h = o.ledger.made ∨ pc' ≠ pc ∧ o.cached pc' = some h := by
    by_cases same : pc' = pc
    · subst same
      rw [Function.update_self, Option.some.injEq] at found
      exact .inl ⟨rfl, found.symm⟩
    · rw [Function.update_of_ne same] at found
      exact .inr ⟨same, found⟩
  refine ⟨fun pc' => ?_, fun pc' h found => ?_, fun pc' h found => ?_, fun h held => ?_,
    fun t a inside => ?_, ?_⟩
  · dsimp only
    rw [entry, Function.update_apply, Function.update_apply]
    split
    · rfl
    · exact live.agrees pc'
  · rcases cases found with ⟨-, rfl⟩ | ⟨-, old⟩
    · exact (whole _).mpr (.inr rfl)
    · exact (whole h).mpr (.inl (live.kept pc' h old))
  · dsimp only at found ⊢
    rcases cases found with ⟨rfl, rfl⟩ | ⟨-, old⟩
    · exact Function.update_self ..
    · rw [Function.update_of_ne (Nat.ne_of_lt (older old))]
      exact live.named pc' h old
  · dsimp only at held ⊢
    have place : h ∈ o.ledger.held ∨ h = o.ledger.made := by
      rcases grown with rfl | ⟨-, rfl⟩
      · exact (List.mem_append.mp held).imp_right List.mem_singleton.mp
      · exact .inl held
    rcases place with before | rfl
    · obtain ⟨pc', found⟩ := live.holder h before
      refine ⟨pc', ?_⟩
      rw [Function.update_of_ne, found]
      rintro rfl
      rw [unknown] at found
      cases found
    · exact ⟨pc, Function.update_self ..⟩
  · dsimp only at inside
    rw [here] at inside
    rcases inside with at_ | at_ <;> cases at_
  · obtain ⟨pcs, distinct, cached, few⟩ := live.few
    refine ⟨pc :: pcs, List.nodup_cons.mpr ⟨fun known => ?_, distinct⟩, fun pc' listed => ?_, ?_⟩
    · have found := cached pc known
      rw [unknown] at found
      cases found
    · dsimp only
      rw [Function.update_apply]
      split
      · rfl
      · rename_i other
        exact cached pc' ((List.mem_cons.mp listed).resolve_left other)
    · dsimp only
      rw [compiled, flushes, List.length_cons]
      omega

theorem Owned.standing {o : Owner E} (owned : Owned b o)
    (going : ∀ why, o.dispatcher.position ≠ .stopped why) : o.tornDown = false := by
  rw [← Bool.not_eq_true]
  intro torn
  rcases (owned.ended torn).2 with at_ | at_
  · exact going _ at_
  · exact going _ at_

theorem compile_owned {o : Owner E} (owned : Owned b o) (here : o.dispatcher.position = .top)
    (miss : o.dispatcher.cache o.dispatcher.machine.vm.programCounter = none) :
    Owned b (o.compile b grows) := by
  have standing := owned.standing fun why => by rw [here]; exact Position.noConfusion
  have live := owned.live standing
  have coherent := compile_coherent b owned.coherent here miss
  unfold compile
  -- A compilation that succeeds makes one result, and one that fails makes none.
  rcases compile_cases b o.dispatcher with ⟨rest, blocks, -, same⟩ | ⟨-, same⟩
  · have top : (o.dispatcher.compile b).position = .top := by rw [same]; exact here
    have entry : ∃ t, (o.dispatcher.compile b).cache = Function.update o.dispatcher.cache
        o.dispatcher.machine.vm.programCounter (some t) := by rw [same]; exact ⟨_, rfl⟩
    have compiled : (o.dispatcher.compile b).compiled = o.dispatcher.compiled + 1 := by rw [same]
    have flushes : (o.dispatcher.compile b).flushes = o.dispatcher.flushes := by rw [same]
    dsimp only
    rw [top]
    -- Of the new dispatcher only these fields matter.
    generalize o.dispatcher.compile b = d at coherent top entry compiled flushes ⊢
    obtain ⟨l, capacity, remembered, grown, room⟩ := @remember_cases E b grows (o.enter b d)
    have live' := @Live.enter E b o live d l capacity miss entry compiled flushes top grown
    dsimp only
    rw [remembered]
    refine ⟨coherent, fun _ => live', fun torn => ?_, fun gcc => room gcc (owned.room gcc),
      fun llvm => ?_, ?_, ?_, live'.bounded⟩
    · exact absurd (standing.symm.trans torn) Bool.false_ne_true
    · rcases grown with rfl | ⟨gcc, -⟩
      · exact owned.lost llvm
      · cases llvm.symm.trans gcc
    · show (o.clashed || (b.backend == .llvm && o.symbols.contains _)) = false
      rw [owned.clear, Bool.false_or, Bool.and_eq_false_iff]
      refine .inr (Bool.eq_false_iff.mpr fun defined => live.unnamed miss ?_)
      exact List.contains_iff_mem.mp defined
    · show l.made = d.compiled
      rw [compiled, ← owned.counted]
      rcases grown with rfl | ⟨-, rfl⟩ <;> rfl
  · have failed : (o.dispatcher.compile b).position = .stopped .codegenFailed := by rw [same]
    have cache : (o.dispatcher.compile b).cache = o.dispatcher.cache := by rw [same]
    have compiled : (o.dispatcher.compile b).compiled = o.dispatcher.compiled := by rw [same]
    have flushes : (o.dispatcher.compile b).flushes = o.dispatcher.flushes := by rw [same]
    dsimp only
    rw [failed]
    generalize o.dispatcher.compile b = d at coherent failed cache compiled flushes ⊢
    refine ⟨coherent, fun _ => ⟨fun pc => ?_, live.kept, live.named, live.holder,
      fun t a inside => ?_, ?_⟩, fun torn => ?_, owned.room, owned.lost, owned.clear, ?_, ?_⟩
    · exact (live.agrees pc).trans (by rw [← cache])
    · rcases inside with at_ | at_ <;> cases failed.symm.trans at_
    · show ∃ pcs : List Word, _ ∧ _ ∧ d.compiled ≤ 2 ^ 16 * d.flushes + _
      rw [compiled, flushes]
      exact live.few
    · exact absurd (standing.symm.trans torn) Bool.false_ne_true
    · exact owned.counted.trans compiled.symm
    · show d.compiled ≤ 2 ^ 16 * (d.flushes + 1)
      rw [compiled, flushes]
      exact owned.bounded

theorem service_owned {o : Owner E} (owned : Owned b o)
    (here : o.dispatcher.position = .returned) : Owned b (o.service P) := by
  have standing := owned.standing fun why => by rw [here]; exact Position.noConfusion
  have live := owned.live standing
  have coherent := service_coherent P b owned.coherent here
  have outside (t : Trace) (a : Word) : ¬ ((o.dispatcher.service P).position = .running t a ∨
      (o.dispatcher.service P).position = .backedge t a) := by
    rcases service_position P o.dispatcher with at_ | at_ <;> simp [at_]
  have compiled : (o.dispatcher.service P).compiled = o.dispatcher.compiled := by
    obtain ⟨env, position, count, -, same⟩ := service_eq P o.dispatcher
    rw [same]
    split <;> rfl
  have cache := service_cache P o.dispatcher
  have flushes := service_flushes P o.dispatcher
  unfold service
  generalize o.dispatcher.service P = d at coherent outside compiled cache flushes ⊢
  -- A flush releases every result, and without one nothing is released.
  cases pending : o.dispatcher.machine.smcPending with
  | true =>
    rw [pending, if_pos rfl] at cache flushes
    rw [if_pos rfl]
    refine ⟨coherent, fun _ => ⟨fun pc => ?_, (fun _ _ found => nomatch found),
      (fun _ _ found => nomatch found), (fun _ held => nomatch held),
      fun t a inside => absurd inside (outside t a),
      [], List.nodup_nil, (fun _ here => nomatch here), ?_⟩,
      fun torn => absurd (standing.symm.trans torn) Bool.false_ne_true, fun _ => Nat.le_refl 0,
      owned.lost, owned.clear, owned.counted.trans compiled.symm, ?_⟩
    · show false = (d.cache pc).isSome
      rw [cache]
      rfl
    · show d.compiled ≤ 2 ^ 16 * d.flushes + 0
      rw [compiled, flushes]
      exact owned.bounded
    · show d.compiled ≤ 2 ^ 16 * (d.flushes + 1)
      have before := owned.bounded
      rw [compiled, flushes]
      omega
  | false =>
    rw [pending, if_neg Bool.false_ne_true] at cache flushes
    rw [if_neg Bool.false_ne_true]
    refine ⟨coherent, fun _ => ⟨fun pc => ?_, live.kept, live.named, live.holder,
      fun t a inside => absurd inside (outside t a), ?_⟩,
      fun torn => absurd (standing.symm.trans torn) Bool.false_ne_true, owned.room,
      owned.lost, owned.clear, owned.counted.trans compiled.symm, ?_⟩
    · exact (live.agrees pc).trans (by rw [← cache])
    · show ∃ pcs : List Word, _ ∧ _ ∧ d.compiled ≤ 2 ^ 16 * d.flushes + _
      rw [compiled, flushes]
      exact live.few
    · show d.compiled ≤ 2 ^ 16 * (d.flushes + 1)
      rw [compiled, flushes]
      exact owned.bounded

theorem teardown_owned {o : Owner E} (owned : Owned b o)
    (here : o.dispatcher.position = .stopped .quit ∨
      o.dispatcher.position = .stopped .codegenFailed) : Owned b (o.teardown b) where
  coherent := owned.coherent
  live standing := absurd standing.symm Bool.false_ne_true
  ended _ := ⟨rfl, here⟩
  room _ := Nat.le_refl 0
  lost := owned.lost
  clear := owned.clear
  counted := owned.counted
  bounded := owned.bounded

theorem Owned.follow {o : Owner E} (owned : Owned b o) {d : Dispatcher E} {calling : Option Nat}
    (standing : o.tornDown = false) (coherent : Coherent b d) (cache : d.cache = o.dispatcher.cache)
    (compiled : d.compiled = o.dispatcher.compiled) (flushes : d.flushes = o.dispatcher.flushes)
    (calls : ∀ t a, d.position = .running t a ∨ d.position = .backedge t a →
      ∃ h, calling = some h ∧ o.cached t.start = some h) :
    Owned b { o with dispatcher := d, calling := calling } := by
  have live := owned.live standing
  refine ⟨coherent, fun _ => ⟨fun pc => ?_, live.kept, live.named, live.holder, calls, ?_⟩,
    fun torn => absurd (standing.symm.trans torn) Bool.false_ne_true, owned.room, owned.lost,
    owned.clear, owned.counted.trans compiled.symm, ?_⟩
  · exact (live.agrees pc).trans (by rw [← cache])
  · show ∃ pcs : List Word, _ ∧ _ ∧ d.compiled ≤ 2 ^ 16 * d.flushes + _
    rw [compiled, flushes]
    exact live.few
  · show d.compiled ≤ 2 ^ 16 * (d.flushes + 1)
    rw [compiled, flushes]
    exact owned.bounded

theorem step_owned {o o' : Owner E} (owned : Owned b o) (next : o.step P b grows = some o') :
    Owned b o' := by
  -- Inside a trace the result that is called stays the same.
  have inside {t : Trace} {a : Word}
      (here : o.dispatcher.position = .running t a ∨ o.dispatcher.position = .backedge t a)
      (next : (o.dispatcher.step P b).map (fun d => { o with dispatcher := d }) = some o') :
      Owned b o' := by
    obtain ⟨d, stepped, rfl⟩ := Option.map_eq_some_iff.mp next
    have standing := owned.standing fun why => by rcases here with at_ | at_ <;> rw [at_] <;>
      exact Position.noConfusion
    obtain ⟨cache, compiled, flushes, same⟩ := inside_step here stepped
    refine owned.follow standing (step_coherent P b owned.coherent stepped) cache compiled flushes
      fun u c at_ => ?_
    rw [same u c at_]
    exact (owned.live standing).calling t a here
  unfold step at next
  cases here : o.dispatcher.position with
  | top =>
    rw [here] at next
    dsimp only at next
    cases hit : o.dispatcher.cache o.dispatcher.machine.vm.programCounter with
    | none =>
      rw [hit] at next
      cases next
      exact compile_owned owned here hit
    | some t =>
      rw [hit] at next
      obtain ⟨d, stepped, rfl⟩ := Option.map_eq_some_iff.mp next
      have standing := owned.standing fun why => by rw [here]; exact Position.noConfusion
      have called : Dispatcher.step P b o.dispatcher =
          some { o.dispatcher with position := .running t t.start } := by
        simp only [Dispatcher.step, here, hit]
      have coherent := step_coherent P b owned.coherent stepped
      cases called.symm.trans stepped
      refine owned.follow standing coherent rfl rfl rfl fun u c at_ => ?_
      obtain rfl : t = u := by rcases at_ with at_ | at_ <;> cases at_; rfl
      have known := (owned.live standing).agrees o.dispatcher.machine.vm.programCounter
      rw [hit] at known
      obtain ⟨h, cached⟩ := Option.isSome_iff_exists.mp known
      rw [(owned.coherent.traced _ t hit).1]
      exact ⟨h, cached, cached⟩
  | running t a => rw [here] at next; exact inside (.inl here) next
  | backedge t a => rw [here] at next; exact inside (.inr here) next
  | returned =>
    rw [here] at next
    cases next
    exact service_owned owned here
  | stopped why =>
    rw [here] at next
    cases why with
    | errer | outOfFuel => cases next
    | quit =>
      dsimp only at next
      split at next
      · cases next
      · cases next
        exact teardown_owned owned (.inl here)
    | codegenFailed =>
      dsimp only at next
      split at next
      · cases next
      · cases next
        exact teardown_owned owned (.inr here)

theorem compile_dispatcher (o : Owner E) :
    (o.compile b grows).dispatcher = o.dispatcher.compile b := by
  unfold compile
  dsimp only
  split
  · obtain ⟨l, capacity, remembered, -⟩ := @remember_cases E b grows
      (o.enter b (o.dispatcher.compile b))
    rw [remembered]
    rfl
  · rfl

theorem step_dispatcher {o o' : Owner E} (next : o.step P b grows = some o') :
    o.dispatcher.step P b = some o'.dispatcher ∨
      o'.dispatcher = o.dispatcher ∧ o'.tornDown = true := by
  unfold step at next
  unfold Dispatcher.step
  cases here : o.dispatcher.position with
  | top =>
    rw [here] at next
    dsimp only at next ⊢
    cases hit : o.dispatcher.cache o.dispatcher.machine.vm.programCounter with
    | none =>
      rw [hit] at next
      cases next
      exact .inl (congrArg some (compile_dispatcher o).symm)
    | some t =>
      rw [hit] at next
      obtain ⟨d, stepped, rfl⟩ := Option.map_eq_some_iff.mp next
      simp only [Dispatcher.step, here, hit] at stepped
      exact .inl stepped
  | running t a | backedge t a =>
    rw [here] at next
    obtain ⟨d, stepped, rfl⟩ := Option.map_eq_some_iff.mp next
    simp only [Dispatcher.step, here] at stepped
    exact .inl stepped
  | returned =>
    rw [here] at next
    cases next
    refine .inl (congrArg some ?_)
    unfold service
    dsimp only
  | stopped why =>
    rw [here] at next
    cases why with
    | errer | outOfFuel => cases next
    | quit | codegenFailed =>
      dsimp only at next
      split at next
      · cases next
      · cases next
        exact .inr ⟨rfl, rfl⟩

theorem Live.addresses {o : Owner E} (live : o.Live b) :
    ∃ pcs : List Word, pcs.Nodup ∧ pcs.length = o.ledger.held.length := by
  suffices listed : ∀ hs : List Nat, hs.Nodup → hs ⊆ o.ledger.held → ∃ pcs : List Word,
      pcs.Nodup ∧ pcs.length = hs.length ∧ ∀ pc ∈ pcs, ∃ h ∈ hs, o.cached pc = some h by
    obtain ⟨pcs, distinct, long, -⟩ :=
      listed o.ledger.held o.ledger.held_nodup fun _ here => here
    exact ⟨pcs, distinct, long⟩
  intro hs distinct inside
  induction hs with
  | nil => exact ⟨[], List.nodup_nil, rfl, fun _ here => nomatch here⟩
  | cons h hs ih =>
    obtain ⟨fresh, rest⟩ := List.nodup_cons.mp distinct
    obtain ⟨pcs, apart, long, owners⟩ := ih rest fun _ later => inside (List.mem_cons_of_mem _ later)
    obtain ⟨pc, cached⟩ := live.holder h (inside List.mem_cons_self)
    refine ⟨pc :: pcs, List.nodup_cons.mpr ⟨fun known => ?_, apart⟩, congrArg (· + 1) long,
      fun pc' listed => ?_⟩
    · obtain ⟨h', later, cached'⟩ := owners pc known
      cases cached.symm.trans cached'
      exact fresh later
    · rcases List.mem_cons.mp listed with rfl | later
      · exact ⟨h, List.mem_cons_self, cached⟩
      · obtain ⟨h', there, cached'⟩ := owners pc' later
        exact ⟨h', List.mem_cons_of_mem _ there, cached'⟩

theorem Owned.few {o : Owner E} (owned : Owned b o) : o.ledger.held.length ≤ 2 ^ 16 := by
  cases torn : o.tornDown with
  | true =>
    rw [(owned.ended torn).1]
    exact Nat.zero_le _
  | false =>
    obtain ⟨pcs, distinct, long⟩ := (owned.live torn).addresses
    rw [← long]
    exact length_le_words distinct

theorem run_owned {vm : VM} {env : E} {n : Nat} {o : Owner E}
    (run : Run.after (Owner.step P b grows) n (start vm env) = some o) :
    Owned b o ∧ ∃ m, Run.after (Dispatcher.step P b) m (Jit.start vm env) = some o.dispatcher := by
  have keeps (o o' : Owner E) (both : Owned b o ∧
      ∃ m, Run.after (Dispatcher.step P b) m (Jit.start vm env) = some o.dispatcher)
      (next : o.step P b grows = some o') : Owned b o' ∧
      ∃ m, Run.after (Dispatcher.step P b) m (Jit.start vm env) = some o'.dispatcher := by
    obtain ⟨owned, m, reached⟩ := both
    refine ⟨step_owned owned next, ?_⟩
    rcases step_dispatcher next with stepped | ⟨same, -⟩
    · exact ⟨m + 1, Run.after_succ.mpr ⟨_, reached, stepped⟩⟩
    · exact ⟨m, same ▸ reached⟩
  exact Run.invariant keeps ⟨start_owned vm env, 0, rfl⟩ run

/-! ## Compilations between flushes -/

/-- The main loop is about to compile the address. -/
structure Compiles (o : Owner E) (pc : Word) : Prop where
  top : o.dispatcher.position = .top
  here : o.dispatcher.machine.vm.programCounter = pc
  miss : o.dispatcher.cache pc = none

/-- A flush has come since there were `f` of them, or `pc` needs no compilation. -/
def Settled (f : Nat) (pc : Word) (d : Dispatcher E) : Prop :=
  f < d.flushes ∨ d.flushes = f ∧ ((d.cache pc).isSome ∨ ∃ why, d.position = .stopped why)

theorem compile_settled {d : Dispatcher E} {f : Nat} (flushes : d.flushes = f) :
    Settled f d.machine.vm.programCounter (d.compile b) := by
  rcases compile_cases b d with ⟨rest, blocks, -, same⟩ | ⟨-, same⟩ <;> rw [same]
  · exact .inr ⟨flushes, .inl (by simp)⟩
  · exact .inr ⟨flushes, .inr ⟨_, rfl⟩⟩

theorem Settled.step {f : Nat} {pc : Word} {d d' : Dispatcher E} (settled : Settled f pc d)
    (next : d.step P b = some d') : Settled f pc d' := by
  -- Most steps touch neither the cache nor the number of flushes.
  have keeps (flushes : d'.flushes = d.flushes) (cache : d'.cache = d.cache)
      (going : ∀ why, d.position ≠ .stopped why) : Settled f pc d' := by
    unfold Settled
    rw [flushes, cache]
    exact settled.imp_right (And.imp_right (.inl <| ·.resolve_right fun ⟨why, at_⟩ => going why at_))
  have kept {t : Trace} {a : Word} (here : d.position = .running t a ∨ d.position = .backedge t a) :
      Settled f pc d' := by
    obtain ⟨cache, -, flushes, -⟩ := inside_step here next
    exact keeps flushes cache fun why at_ => by rcases here with here | here <;> cases here.symm.trans at_
  cases here : d.position with
  | top =>
    unfold Dispatcher.step at next
    rw [here] at next
    dsimp only at next
    split at next <;> cases next
    -- A compilation adds an entry, and takes none away.
    · rcases settled with before | ⟨flushes, known⟩
      · left
        rcases compile_cases b d with ⟨rest, blocks, -, same⟩ | ⟨-, same⟩ <;> rw [same] <;>
          exact before
      · have known := known.resolve_right fun ⟨why, at_⟩ => by cases here.symm.trans at_
        rcases compile_cases b d with ⟨rest, blocks, -, same⟩ | ⟨-, same⟩ <;> rw [same]
        · refine .inr ⟨flushes, .inl ?_⟩
          dsimp only
          rw [Function.update_apply]
          split
          · rfl
          · exact known
        · exact .inr ⟨flushes, .inl known⟩
    · exact keeps rfl rfl fun why at_ => by cases here.symm.trans at_
  | running t a => exact kept (.inl here)
  | backedge t a => exact kept (.inr here)
  | returned =>
    unfold Dispatcher.step at next
    rw [here] at next
    cases next
    have cache := service_cache P d
    have flushes := service_flushes P d
    cases pending : d.machine.smcPending with
    | true =>
      rw [pending, if_pos rfl] at flushes
      refine .inl ?_
      rcases settled with before | ⟨same, -⟩ <;> omega
    | false =>
      rw [pending, if_neg Bool.false_ne_true] at cache flushes
      exact keeps flushes cache fun why at_ => by cases here.symm.trans at_
  | stopped why =>
    unfold Dispatcher.step at next
    rw [here] at next
    cases next

theorem compiles_apart {s o u : Owner E} {k n : Nat} {pc : Word} (order : k < n)
    (first : Run.after (Owner.step P b grows) k s = some u)
    (second : Run.after (Owner.step P b grows) n s = some o) (compiles : u.Compiles pc)
    (again : o.Compiles pc) : u.dispatcher.flushes < o.dispatcher.flushes := by
  obtain ⟨v, reached, rest⟩ := Run.after_le (Nat.succ_le_of_lt order) second
  obtain ⟨w, earlier, compiled⟩ := Run.after_succ.mp reached
  cases first.symm.trans earlier
  have settled : Settled u.dispatcher.flushes pc v.dispatcher := by
    unfold Owner.step at compiled
    rw [compiles.top] at compiled
    dsimp only at compiled
    rw [compiles.here, compiles.miss] at compiled
    rw [← Option.some.inj compiled, compile_dispatcher, ← compiles.here]
    exact compile_settled rfl
  have keeps (o o' : Owner E) (settled : Settled u.dispatcher.flushes pc o.dispatcher)
      (next : o.step P b grows = some o') : Settled u.dispatcher.flushes pc o'.dispatcher := by
    rcases step_dispatcher next with stepped | ⟨same, -⟩
    · exact settled.step stepped
    · exact same ▸ settled
  rcases Run.invariant keeps settled rest with before | ⟨-, known | ⟨why, at_⟩⟩
  · exact before
  · rw [again.miss] at known
    cases known
  · cases again.top.symm.trans at_

end

end Owner

/-- The results of the JITs, with either back end and whatever `realloc` does. No result is
released twice; while the main loop runs no entry of the cache is the code of a released one, nor
is the code being executed; LLVM never finds a symbol defined twice. Behind the teardown every
result has been released, but those libgccjit's list had no room for. No address is compiled
twice without a flush in between, so that no more than 2^16 results are held. -/
theorem results_released_once {E : Type} (P : Host E) (b : Build) (grows : Nat → Bool) (vm : VM)
    (env : E) {n : Nat} {o : Owner E}
    (run : Run.after (Owner.step P b grows) n (Owner.start vm env) = some o) :
    (∃ m, Run.after (Dispatcher.step P b) m (start vm env) = some o.dispatcher) ∧
    o.ledger.released.Nodup ∧
    (o.tornDown = false → ∀ pc h, o.cached pc = some h → h ∉ o.ledger.released) ∧
    (∀ t a, o.dispatcher.position = .running t a ∨ o.dispatcher.position = .backedge t a →
      ∃ h, o.calling = some h ∧ h ∉ o.ledger.released) ∧
    o.clashed = false ∧
    (o.tornDown = true → ∀ h < o.dispatcher.compiled, h ∈ o.ledger.released ∨
      b.backend = .libgccjit ∧ h ∈ o.ledger.lost) ∧
    (b.backend = .libgccjit → o.ledger.held.length ≤ o.capacity) ∧
    (∀ k < n, ∀ u pc, Run.after (Owner.step P b grows) k (Owner.start vm env) = some u →
      u.Compiles pc → o.Compiles pc → u.dispatcher.flushes < o.dispatcher.flushes) ∧
    o.ledger.held.length ≤ 2 ^ 16 ∧
    o.dispatcher.compiled ≤ 2 ^ 16 * (o.dispatcher.flushes + 1) := by
  obtain ⟨owned, followed⟩ := Owner.run_owned run
  refine ⟨followed, o.ledger.released_nodup, ?_, ?_, owned.clear, ?_, owned.room,
    fun k order u pc earlier => Owner.compiles_apart order earlier run, owned.few, owned.bounded⟩
  · intro standing pc h cached
    exact o.ledger.not_released ((owned.live standing).kept pc h cached)
  · intro t a inside
    have live := owned.live (owned.standing fun why => by
      rcases inside with at_ | at_ <;> rw [at_] <;> exact Position.noConfusion)
    obtain ⟨h, calling, cached⟩ := live.calling t a inside
    exact ⟨h, calling, o.ledger.not_released (live.kept _ h cached)⟩
  · intro torn h made
    rw [← owned.counted, o.ledger.mem_made, (owned.ended torn).1] at made
    rcases made with released | held | lost
    · exact .inl released
    · cases held
    · refine .inr ⟨?_, lost⟩
      cases backend : b.backend with
      | libgccjit => rfl
      | llvm =>
        rw [owned.lost backend] at lost
        cases lost

/-- The program that overwrites itself: its trace is released by the flush, in the fifth step. -/
theorem results_released_once_overwritesItself :
    ∃ o : Owner Bench, Run.after (Owner.step quietHost ⟨.libgccjit, true, false⟩ fun _ => true) 5
        (Owner.start (VM.boot overwritesItself) (Bench.initial 10 640 .none)) = some o ∧
      o.ledger.released = [0] ∧ (o.tornDown = false → ∀ pc h, o.cached pc = some h →
        h ∉ o.ledger.released) := by
  have run : Run.after (Owner.step quietHost ⟨.libgccjit, true, false⟩ fun _ => true) 5
      (Owner.start (VM.boot overwritesItself) (Bench.initial 10 640 .none)) = some _ := rfl
  exact ⟨_, run, rfl, (results_released_once quietHost ⟨.libgccjit, true, false⟩ (fun _ => true)
    _ _ run).2.2.1⟩

end ChipEight.Jit
