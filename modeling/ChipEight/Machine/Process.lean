import ChipEight.Machine.Interactive

/-! From `init_io` to the end of a process.

Behind its loop every `main` calls `deinit_io` and dumps the machine. A loop can also be
cut short by `exit`, which does neither.
-/

set_option autoImplicit false

namespace ChipEight

/-- How a loop of `main` ends. -/
inductive Ending where
  | leaves
  /-- `exit` is called inside the loop. -/
  | exits
  deriving DecidableEq, Repr

/-- Where a process is; `init_io` lies behind it. -/
inductive Point where
  | loop
  | deinitIo
  | dump
  | ended
  deriving DecidableEq, Repr

structure Process (S : Type) where
  state : S
  point : Point
  /-- Calls of `deinit_io`. -/
  deinits : Nat
  /-- Calls of `dump_chip8_state`. -/
  dumps : Nat

namespace Process

section
variable {S : Type} (step : S → Option S) (ending : S → Option Ending)

def start (s : S) : Process S := ⟨s, .loop, 0, 0⟩

/-- A step of the loop, or of what stands behind it. -/
def next (p : Process S) : Option (Process S) :=
  match p.point with
  | .loop =>
    match ending p.state with
    | some .leaves => some { p with point := .deinitIo }
    | some .exits => some { p with point := .ended }
    | none => (step p.state).map fun s => { p with state := s }
  | .deinitIo => some { p with deinits := p.deinits + 1, point := .dump }
  | .dump => some { p with dumps := p.dumps + 1, point := .ended }
  | .ended => none

/-- The terminal is restored, once, and the machine dumped. -/
structure Closed (p : Process S) : Prop where
  deinits : p.deinits = 1
  dumps : p.dumps = 1

/-- The counts tell how far the shutdown has come, or that there was none. -/
def Counts (p : Process S) : Prop :=
  match p.point with
  | .loop => p.deinits = 0 ∧ p.dumps = 0
  | .deinitIo => p.deinits = 0 ∧ p.dumps = 0 ∧ ending p.state = some .leaves
  | .dump => p.deinits = 1 ∧ p.dumps = 0 ∧ ending p.state = some .leaves
  | .ended => p.deinits = 1 ∧ p.dumps = 1 ∧ ending p.state = some .leaves ∨
      p.deinits = 0 ∧ p.dumps = 0 ∧ ending p.state = some .exits

theorem next_counts {p p' : Process S} (counts : p.Counts ending)
    (stepped : p.next step ending = some p') : p'.Counts ending := by
  obtain ⟨s, point, deinits, dumps⟩ := p
  unfold next at stepped
  dsimp only at stepped
  cases point with
  | loop =>
    obtain ⟨rfl, rfl⟩ := counts
    dsimp only at stepped
    split at stepped
    · rename_i leaves
      cases stepped
      exact ⟨rfl, rfl, leaves⟩
    · rename_i exits
      cases stepped
      exact .inr ⟨rfl, rfl, exits⟩
    · obtain ⟨s', -, rfl⟩ := Option.map_eq_some_iff.mp stepped
      exact ⟨rfl, rfl⟩
  | deinitIo =>
    obtain ⟨rfl, rfl, leaves⟩ := counts
    cases stepped
    exact ⟨rfl, rfl, leaves⟩
  | dump =>
    obtain ⟨rfl, rfl, leaves⟩ := counts
    cases stepped
    exact .inl ⟨rfl, rfl, leaves⟩
  | ended => cases stepped

theorem started_counts {s : S} {n : Nat} {p : Process S}
    (run : Run.after (next step ending) n (start s) = some p) : p.Counts ending := by
  have begun : (start s).Counts ending := ⟨rfl, rfl⟩
  exact Run.invariant (fun _ _ => next_counts step ending) begun run

theorem ended_ending {s : S} {n : Nat} {p : Process S}
    (run : Run.after (next step ending) n (start s) = some p) (ended : p.point = .ended) :
    ending p.state = some .leaves ∨ ending p.state = some .exits := by
  have counts := started_counts step ending run
  unfold Counts at counts
  rw [ended] at counts
  obtain ⟨-, -, leaves⟩ | ⟨-, -, exits⟩ := counts
  · exact .inl leaves
  · exact .inr exits

theorem closed_iff {s : S} {n : Nat} {p : Process S}
    (run : Run.after (next step ending) n (start s) = some p) (ended : p.point = .ended) :
    p.Closed ↔ ending p.state = some .leaves := by
  have counts := started_counts step ending run
  unfold Counts at counts
  rw [ended] at counts
  obtain ⟨deinits, dumps, leaves⟩ | ⟨deinits, -, exits⟩ := counts
  · exact ⟨fun _ => leaves, fun _ => ⟨deinits, dumps⟩⟩
  · constructor
    · intro closed
      rw [closed.deinits] at deinits
      cases deinits
    · intro leaves
      rw [exits] at leaves
      cases leaves

end

end Process

/-- The loop of the interpreter's `main` is left by `break` only. -/
def Main.ending (m : Main) : Option Ending :=
  match m.phase with
  | .finished => some .leaves
  | _ => none

theorem Main.ending_leaves {m : Main} {e : Ending} (ends : m.ending = some e) : e = .leaves := by
  unfold Main.ending at ends
  split at ends
  · cases ends
    rfl
  · cases ends

end ChipEight
