import ChipEight.Jit.Coherence
import ChipEight.Jit.StaticPath

/-! Subscripts of `pc_block`, the table of `MEMORY_SIZE` entries.

`OPCODE_AT` and `mark_code` wrap an address to twelve bits, the subscript does
not. A jump target fits by its encoding; the running `pc` leaves the table when a
trace is entered beyond it or runs past its end.
-/

set_option autoImplicit false

namespace ChipEight

/-- How far `codegen` moves on from an instruction it falls through or skips past. -/
def Insn.extent : Insn → Nat
  | .skip _ => 4
  | .jp _ | .ret | .call _ | .jpV0 _ | .skipKey _ _ | .ldKey _ | .bcd _ | .save _ => 0
  | _ => 2

namespace Jit

/-- The compilation enters the table and no instruction on its path leads out of it:
no straight-line operation lies at `0xffe` or above and no skip at `0xffc` or above. -/
def StaysLow (memory : Memory) (entry : Word) : Prop :=
  entry.toNat < memorySize ∧ ∀ k a i, staticPath memory entry k = some a →
    decode (opcodeAt memory a) = some i → a.toNat + i.extent < memorySize

theorem successor_extent {k : Nat} {a a' : Word} {i : Insn} (next : i.successor k a = some a') :
    a'.toNat < memorySize ∧ i.extent = 0 ∨ 0 < i.extent ∧ a' = a + BitVec.ofNat 16 i.extent := by
  cases i with
  | jp nnn =>
    simp only [Insn.successor] at next
    split at next
    · cases next
      refine .inl ⟨?_, rfl⟩
      rw [BitVec.toNat_setWidth, memorySize]
      omega
    · cases next
  | ret | call nnn | jpV0 nnn | skipKey x up | ldKey x | bcd x | save x => cases next
  | _ => cases next; exact .inr ⟨by simp [Insn.extent], rfl⟩

theorem extent_successor {k : Nat} {a : Word} {i : Insn} (moves : 0 < i.extent) :
    i.successor k a = some (a + BitVec.ofNat 16 i.extent) := by
  cases i with
  | jp nnn | ret | call nnn | jpV0 nnn | skipKey x up | ldKey x | bcd x | save x =>
    exact absurd moves (Nat.lt_irrefl 0)
  | _ => rfl

theorem extent_le (i : Insn) : i.extent ≤ 4 := by
  cases i <;> simp [Insn.extent]

theorem toNat_add_extent {a : Word} (i : Insn) (low : a.toNat < memorySize) :
    (a + BitVec.ofNat 16 i.extent).toNat = a.toNat + i.extent := by
  have small := extent_le i
  rw [memorySize] at low
  rw [BitVec.toNat_add, BitVec.toNat_ofNat]
  omega

theorem staysLow_iff (memory : Memory) (entry : Word) :
    StaysLow memory entry ↔ ∀ k a, staticPath memory entry k = some a → a.toNat < memorySize := by
  constructor
  · rintro ⟨enters, stays⟩ k
    induction k with
    | zero =>
      intro a here
      cases here
      exact enters
    | succ k ih =>
      intro a here
      obtain ⟨p, before, next⟩ := staticPath_succ.mp here
      obtain ⟨i, decoded, next⟩ := Option.bind_eq_some_iff.mp next
      rcases successor_extent next with ⟨low, -⟩ | ⟨-, rfl⟩
      · exact low
      · rw [toNat_add_extent i (ih p before)]
        exact stays k p i before decoded
  · intro low
    refine ⟨low 0 entry rfl, ?_⟩
    intro k a i here decoded
    rcases Nat.eq_zero_or_pos i.extent with still | moves
    · rw [still]
      exact low k a here
    · rw [← toNat_add_extent i (low k a here)]
      refine low (k + 1) _ (staticPath_succ.mpr ⟨a, here, ?_⟩)
      rw [successor, decoded]
      exact extent_successor moves

theorem indices_in_bounds (b : Build) (memory : Memory) (entry : Word) :
    (∀ i ∈ (codegen b memory entry).indices, i.toNat < memorySize) ↔ StaysLow memory entry := by
  rw [staysLow_iff]
  constructor
  · intro inside k a here
    have visited : Visited memory entry 0 [] := by
      intro a
      simp
    rcases indices_complete b memory entry rfl visited (codegen_terminates b memory entry) here with
      none | used
    · cases none
    · exact inside a used
  · intro low i used
    rcases indices_sound b memory entry rfl used with ⟨k, here⟩ | isTarget
    · exact low k i here
    · exact isTarget

/-- The dispatcher is about to call `codegen`. -/
def Compiles {E : Type} (d : Dispatcher E) : Prop :=
  d.position = .top ∧ d.cache d.machine.vm.programCounter = none

section
variable {E : Type} (P : Host E) (b : Build)

/-- In a run, every subscript of every compilation is inside the table exactly if
every compilation of the run stays low. -/
theorem pc_block_in_bounds_iff (vm : VM) (env : E) :
    (∀ d, Run.Reaches (Dispatcher.step P b) (start vm env) d → Compiles d →
      ∀ i ∈ (codegen b d.machine.vm.memory d.machine.vm.programCounter).indices,
        i.toNat < memorySize) ↔
    ∀ d, Run.Reaches (Dispatcher.step P b) (start vm env) d → Compiles d →
      StaysLow d.machine.vm.memory d.machine.vm.programCounter := by
  refine forall_congr' fun d => forall_congr' fun _ => forall_congr' fun _ => ?_
  exact indices_in_bounds b _ _

end

/-- `LD V0, 0xff; JP V0, 0xfff`. -/
def jumpsPastMemory : List Byte := [0x60, 0xff, 0xbf, 0xff]

/-- After that program's jump the next compilation uses the subscript `0x10fe`. -/
theorem pc_block_out_of_bounds :
    ¬ ∀ d, Run.Reaches (Dispatcher.step quietHost ⟨.libgccjit, true, false⟩)
        (start (VM.boot jumpsPastMemory) (Bench.initial 10 640 .none)) d → Compiles d →
      ∀ i ∈ (codegen ⟨.libgccjit, true, false⟩ d.machine.vm.memory
        d.machine.vm.programCounter).indices, i.toNat < memorySize := by
  intro inside
  have run : Run.after (Dispatcher.step quietHost ⟨.libgccjit, true, false⟩) 5
      (start (VM.boot jumpsPastMemory) (Bench.initial 10 640 .none)) = some _ := rfl
  have low := inside _ ⟨5, run⟩ ⟨rfl, rfl⟩ 0x10fe#16 List.mem_cons_self
  exact absurd low (by decide)

end Jit

end ChipEight
