import ChipEight.Disas.Print
import ChipEight.Disas.Reach
import Mathlib.Tactic.IntervalCases

/-! The descent against runs of the interpreter.

The interpreter accepts more words than `valid_opcode` and jumps to odd addresses too.
Where a run does neither, every word of the ROM it executes is one the descent marks:
control follows the edges the marks are closed under, and what `RET` returns to was
pushed by a marked word.
-/

set_option autoImplicit false

namespace ChipEight.Disas

/-- Both bytes of a word lie in the ROM. -/
def InWord (rom : List Byte) (p : Nat) : Prop :=
  entrypoint.toNat ≤ p ∧ p + 1 < entrypoint.toNat + rom.length

instance (rom : List Byte) (p : Nat) : Decidable (InWord rom p) :=
  inferInstanceAs (Decidable (_ ∧ _))

theorem byteAt_eq {rom : List Byte} {a : Addr} {p : Nat} (same : a.toNat = p) (inside : InRom rom p) :
    byteAt rom p = loadRom rom a := by
  subst same
  rw [byteAt, loadRom, if_neg (Nat.not_lt.mpr inside.1), if_neg (Nat.not_lt.mpr inside.1)]

theorem wordAt_eq {rom : List Byte} {memory : Memory} (intact : Intact rom memory)
    (fits : rom.length ≤ 3584) {pc : Word} (inside : InWord rom pc.toNat) :
    wordAt rom pc.toNat = opcodeAt memory pc := by
  obtain ⟨low, high⟩ := inside
  have first : InRom rom pc.toNat := ⟨low, by omega⟩
  have second : InRom rom (pc.toNat + 1) := ⟨by omega, high⟩
  have next := next_toNat fits first
  rw [intact.opcode fits first second]
  unfold wordAt opcodeAt
  rw [byteAt_eq (mask_toNat fits first) first]
  rw [← next] at second ⊢
  rw [byteAt_eq (mask_toNat fits second) second]

/-- The map of a ROM after both analyses. -/
def mapOf (rom : List Byte) : Map := descend rom (analyze rom .empty)

theorem mapOf_closed {rom : List Byte} (fits : rom.length ≤ 3584) :
    (Walkable rom 512 → (mapOf rom).reach 512 = true) ∧
      ∀ p q, p % 2 = 0 → (mapOf rom).reach p = true → Edge rom p q →
        (mapOf rom).reach q = true := by
  apply descend_closed fits
  intro a
  rw [analyze_reach]
  rfl

theorem glueByte_reach (size : Nat) (inside : Bool) (m : Map) (a : Nat) :
    (glueByte size inside m a).1.reach = m.reach := by
  unfold glueByte
  split
  · rfl
  split
  · rfl
  · exact leaderIf_reach m _ a

theorem glueFrom_reach (size : Nat) (inside : Bool) (m : Map) (as : List Nat) :
    (glueFrom size inside m as).reach = m.reach := by
  induction as generalizing inside m with
  | nil => rfl
  | cons a as ih => rw [glueFrom, ih, glueByte_reach]

theorem finalMap_reach (rom : List Byte) : (finalMap rom).reach = (mapOf rom).reach :=
  glueFrom_reach _ _ _ _

/-- An address that is marked if the descent would walk it. -/
def Known (rom : List Byte) (q : Word) : Prop :=
  Walkable rom q.toNat → (mapOf rom).reach q.toNat = true

theorem known_entry {rom : List Byte} (fits : rom.length ≤ 3584) : Known rom 0x200#16 :=
  (mapOf_closed fits).1

section
variable {E : Type} {P : Platform E} {rom : List Byte}

/-- What holds of every state of a run the descent can follow. -/
structure Followed (rom : List Byte) (s : State E) : Prop where
  intact : Intact rom s.vm.memory
  depth : 0 ≤ s.vm.stackPointer
  here : Known rom s.vm.programCounter
  stack : ∀ k : Nat, (k : Int) < s.vm.stackPointer → Known rom (s.vm.stack k)

theorem followed_start (fits : rom.length ≤ 3584) (env : E) :
    Followed rom ⟨VM.boot rom, env⟩ where
  intact := intact_boot rom
  depth := Int.le_refl 0
  here := known_entry fits
  stack k below := absurd below (Int.not_lt.mpr (Int.natCast_nonneg k))

/-- An executed word of the ROM that the descent would walk. -/
def Fetched (rom : List Byte) (s : State E) : Prop :=
  InWord rom s.vm.programCounter.toNat → s.vm.programCounter.toNat % 2 = 0 ∧
    validOpcode (opcodeAt s.vm.memory s.vm.programCounter) = true

/-- Control comes into the ROM from outside only by `RET`, or to the entry point. -/
def Enters (rom : List Byte) (s t : State E) : Prop :=
  InWord rom t.vm.programCounter.toNat → InWord rom s.vm.programCounter.toNat ∨
    decode (opcodeAt s.vm.memory s.vm.programCounter) = some .ret ∨
    t.vm.programCounter = entrypoint

theorem Followed.walkable {s : State E} (followed : Followed rom s) (fits : rom.length ≤ 3584)
    (fetched : Fetched rom s) (inside : InWord rom s.vm.programCounter.toNat) :
    Walkable rom s.vm.programCounter.toNat := by
  obtain ⟨even, valid⟩ := fetched inside
  refine ⟨labelable_iff.mpr ⟨inside.1, inside.2, even⟩, ?_⟩
  rw [wordAt_eq followed.intact fits inside]
  exact valid

theorem Followed.reach {s : State E} (followed : Followed rom s) (fits : rom.length ≤ 3584)
    (fetched : Fetched rom s) (inside : InWord rom s.vm.programCounter.toNat) :
    (mapOf rom).reach s.vm.programCounter.toNat = true :=
  followed.here (followed.walkable fits fetched inside)

theorem Followed.flows {s : State E} {i : Insn} {q : Word} (followed : Followed rom s)
    (fits : rom.length ≤ 3584) (fetched : Fetched rom s)
    (inside : InWord rom s.vm.programCounter.toNat)
    (decoded : decode (opcodeAt s.vm.memory s.vm.programCounter) = some i)
    (flows : q ∈ i.flows s.vm.programCounter) : Known rom q := by
  intro walk
  have even := (fetched inside).1
  refine (mapOf_closed fits).2 _ _ even (followed.reach fits fetched inside)
    ⟨⟨i, ?_, q, ?_, rfl⟩, walk⟩
  · rw [wordAt_eq followed.intact fits inside]
    exact decoded
  · rw [BitVec.ofNat_toNat, BitVec.setWidth_eq]
    exact flows

theorem known_outside {q : Word} (outside : ¬ InWord rom q.toNat) : Known rom q := by
  intro walk
  obtain ⟨low, high, -⟩ := labelable_iff.mp walk.1
  exact absurd ⟨low, high⟩ outside

theorem known_behind (fits : rom.length ≤ 3584) {pc : Word} (outside : ¬ InWord rom pc.toNat) :
    Known rom (pc + 2) := by
  intro walk
  obtain ⟨low, high, even⟩ := labelable_iff.mp walk.1
  have base : entrypoint.toNat = 512 := rfl
  have sum : (pc + 2).toNat = (pc.toNat + 2) % 65536 := BitVec.toNat_add pc 2#16
  have here : (pc + 2).toNat = 512 := by
    by_contra other
    apply outside
    exact ⟨by omega, by omega⟩
  rw [here] at walk ⊢
  exact known_entry fits walk

theorem Followed.pass {s t : State E} (followed : Followed rom s) (fits : rom.length ≤ 3584)
    (fetched : Fetched rom s) (enters : Enters rom s t) {i : Insn}
    (decoded : decode (opcodeAt s.vm.memory s.vm.programCounter) = some i)
    (executed : i.exec P (opcodeAt s.vm.memory s.vm.programCounter) s = (0#32, t))
    (notBranch : ∀ nnn, i ≠ .jpV0 nnn)
    (outside : ∀ a ∈ i.written s.vm.addr, ¬ InRom rom a.toNat) : Followed rom t := by
  have intact := followed.intact.exec outside executed
  -- A return goes where the stack says; everything else along the edges of the graph.
  by_cases ret : i = .ret
  · subst ret
    obtain ⟨some, stack, pointer, pc⟩ := exec_ret decoded executed
    have below : ((s.vm.stackPointer - 1).toNat : Int) < s.vm.stackPointer := by omega
    refine ⟨intact, by omega, pc ▸ followed.stack _ below, ?_⟩
    intro k under
    rw [stack]
    exact followed.stack k (by omega)
  have here : Known rom t.vm.programCounter := by
    by_cases inside : InWord rom t.vm.programCounter.toNat
    · obtain from' | isRet | entry := enters inside
      · exact followed.flows fits fetched from' decoded (exec_flows decoded ret notBranch executed)
      · rw [decoded] at isRet
        exact absurd (Option.some.inj isRet) ret
      · rw [entry]
        exact known_entry fits
    · exact known_outside inside
  by_cases isCall : ∃ nnn, i = .call nnn
  · obtain ⟨nnn, rfl⟩ := isCall
    obtain ⟨pointer, stack⟩ := exec_call decoded executed
    have depth := followed.depth
    refine ⟨intact, by omega, here, ?_⟩
    intro k under
    rw [stack]
    -- The entry that is pushed is the word behind the call, an edge as well.
    by_cases top : k = s.vm.stackPointer.toNat
    · rw [top, Function.update_self]
      by_cases inside : InWord rom s.vm.programCounter.toNat
      · refine followed.flows fits fetched inside decoded ?_
        exact List.mem_cons_of_mem _ (List.mem_singleton.mpr rfl)
      · exact known_behind fits inside
    · rw [Function.update_of_ne top]
      exact followed.stack k (by omega)
  · obtain ⟨stack, pointer⟩ := exec_stack P (opcodeAt s.vm.memory s.vm.programCounter) ret
      (fun nnn same => isCall ⟨nnn, same⟩) s
    rw [executed] at stack pointer
    dsimp only at stack pointer
    refine ⟨intact, by rw [pointer]; exact followed.depth, here, ?_⟩
    intro k under
    rw [stack]
    exact followed.stack k (pointer ▸ under)

/-- Every word of the ROM such a run executes is marked, and not printed as data. -/
theorem executed_reached (fits : rom.length ≤ 3584) {env : E} {n : Nat} {s : State E}
    (run : Run.after (mainStep P) n ⟨VM.boot rom, env⟩ = some s)
    (noBranch : ∀ k < n, ∀ u, Run.after (mainStep P) k ⟨VM.boot rom, env⟩ = some u →
      ∀ nnn, decode (opcodeAt u.vm.memory u.vm.programCounter) ≠ some (.jpV0 nnn))
    (noStore : ∀ k < n, ∀ u, Run.after (mainStep P) k ⟨VM.boot rom, env⟩ = some u →
      ∀ i, decode (opcodeAt u.vm.memory u.vm.programCounter) = some i →
        ∀ a ∈ i.written u.vm.addr, ¬ InRom rom a.toNat)
    (fetched : ∀ k ≤ n, ∀ u, Run.after (mainStep P) k ⟨VM.boot rom, env⟩ = some u →
      Fetched rom u)
    (enters : ∀ k < n, ∀ u t, Run.after (mainStep P) k ⟨VM.boot rom, env⟩ = some u →
      mainStep P u = some t → Enters rom u t)
    (inside : InWord rom s.vm.programCounter.toNat) :
    (mapOf rom).reach s.vm.programCounter.toNat = true ∧
      ∀ decodeUnreachable,
        isDead decodeUnreachable (finalMap rom) s.vm.programCounter.toNat = false := by
  have followed : Followed rom s := by
    clear inside
    induction n generalizing s with
    | zero =>
      cases run
      exact followed_start fits env
    | succ n ih =>
      obtain ⟨u, earlier, last⟩ := Run.after_succ.mp run
      have followed := ih earlier (fun k small => noBranch k (Nat.lt_succ_of_lt small))
        (fun k small => noStore k (Nat.lt_succ_of_lt small))
        (fun k small => fetched k (Nat.le_succ_of_le small))
        (fun k small => enters k (Nat.lt_succ_of_lt small))
      -- The poll for the quit key changes the host only.
      obtain ⟨-, block⟩ := (mainStep_eq_some P).mp last
      obtain ⟨i, decoded, executed⟩ := blockStep_decodes P block
      have here := Nat.lt_succ_self n
      have polled : Followed rom { u with env := (P.allKeysDown u.env).2 } :=
        ⟨followed.intact, followed.depth, followed.here, followed.stack⟩
      refine polled.pass fits (fetched n (Nat.le_of_lt here) u earlier) ?_ decoded executed ?_ ?_
      · exact enters n here u s earlier last
      · intro nnn same
        exact noBranch n here u earlier nnn (same ▸ decoded)
      · exact noStore n here u earlier i decoded
  have reached := followed.reach fits (fetched n (Nat.le_refl n) s run) inside
  refine ⟨reached, fun decodeUnreachable => ?_⟩
  rw [isDead, finalMap_reach, reached, Bool.not_true, Bool.and_false]

end

/-- `CALL 0x204; JP 0x202; RET`. -/
def callsAndSpins : List Byte := [0x22, 0x04, 0x12, 0x02, 0x00, 0xee]

/-- The run returns to the word behind the call. -/
theorem executed_reached_callsAndSpins :
    ∃ s, Run.after (mainStep (tapePlatform quietTape fun _ => 0#32)) 2
        ⟨VM.boot callsAndSpins, .start⟩ = some s ∧
      s.vm.programCounter = 0x202#16 ∧
      (mapOf callsAndSpins).reach 0x202 = true ∧
      ∀ decodeUnreachable, isDead decodeUnreachable (finalMap callsAndSpins) 0x202 = false := by
  refine ⟨_, rfl, rfl, ?_⟩
  refine @executed_reached _ (tapePlatform quietTape fun _ => 0#32) callsAndSpins (by decide)
    .start 2 _ rfl ?_ ?_ ?_ ?_ (by decide)
  · intro k small u reached nnn
    interval_cases k <;> cases reached <;> exact fun same => by cases same
  · intro k small u reached i decoded
    interval_cases k <;> cases reached <;> cases decoded <;> exact fun a inside => by cases inside
  · intro k small u reached _
    interval_cases k <;> cases reached <;> decide
  · intro k small u t reached stepped _
    interval_cases k <;> cases reached <;> exact .inl (by decide)

/-- `JP 0x203`, and at that odd address `LD V0, 5`. -/
def jumpsOdd : List Byte := [0x12, 0x03, 0x00, 0x60, 0x05]

/-- The interpreter executes the word at the odd address; the descent has not marked it. -/
theorem odd_target_missed :
    ∃ s t, Run.after (mainStep (tapePlatform quietTape fun _ => 0#32)) 1
        ⟨VM.boot jumpsOdd, .start⟩ = some s ∧
      mainStep (tapePlatform quietTape fun _ => 0#32) s = some t ∧
      t.vm.regs 0#4 = 5#8 ∧
      InWord jumpsOdd s.vm.programCounter.toNat ∧
      decode (opcodeAt (loadRom jumpsOdd) 0x200#16) = some (.jp 0x203#12) ∧
      (mapOf jumpsOdd).reach s.vm.programCounter.toNat = false :=
  ⟨_, _, rfl, rfl, rfl, by decide, by decide, by decide⟩

end ChipEight.Disas
