import Mathlib.Data.List.Basic
import Mathlib.Logic.Function.Basic

/-! A ring of slots as a window on a history.

Entries are written into the slots in turn, so a ring of `size` slots holds the latest
`size` entries. A change that is made to all slots is made to these. What is found in some
slot is therefore found in an entry that is recent enough, if no later change removed it.
-/

set_option autoImplicit false

namespace Window

variable {α κ : Type}

structure Ring (α : Type) where
  slots : Nat → α
  next : Nat

section
variable (size : Nat)

def Ring.start (blank : α) : Ring α := ⟨fun _ => blank, 0⟩

/-- Write the next slot. -/
def Ring.record (a : α) (r : Ring α) : Ring α :=
  ⟨Function.update r.slots r.next a, (r.next + 1) % size⟩

/-- Change every slot. -/
def Ring.change (f : α → α) (r : Ring α) : Ring α :=
  ⟨fun i => if i < size then f (r.slots i) else r.slots i, r.next⟩

/-- The slots hold a history, its latest entry first, and are blank before it began. -/
structure Holds (blank : α) (r : Ring α) (history : List α) : Prop where
  next : r.next < size
  slot : ∀ k < size, r.slots ((r.next + size - 1 - k) % size) = history.getD k blank

end

section
variable {size : Nat} {blank : α} {r : Ring α} {history : List α}

theorem Holds.start (some : 0 < size) : Holds size blank (.start blank) [] where
  next := some
  slot _ _ := rfl

theorem Holds.record (holds : Holds size blank r history) (a : α) :
    Holds size blank (r.record size a) (a :: history) where
  next := Nat.mod_lt _ (Nat.lt_of_le_of_lt (Nat.zero_le _) holds.next)
  slot k small := by
    have low := holds.next
    have back : ((r.next + 1) % size + size - 1 - k) % size = (r.next + size - k) % size := by
      rcases Nat.lt_or_ge (r.next + 1) size with inside | wraps
      · rw [Nat.mod_eq_of_lt inside]
        congr 1
        omega
      · -- the slot before the first one is the last one
        obtain same : r.next + 1 = size := by omega
        rw [same, Nat.mod_self, show r.next + size - k = size - 1 - k + size by omega,
          Nat.add_mod_right]
        congr 1
        omega
    unfold Ring.record
    dsimp only
    rw [back]
    cases k with
    | zero =>
      rw [Nat.sub_zero, Nat.add_mod_right, Nat.mod_eq_of_lt low]
      exact Function.update_self ..
    | succ k =>
      have older := holds.slot k (Nat.lt_of_succ_lt small)
      rw [show r.next + size - (k + 1) = r.next + size - 1 - k by omega, List.getD_cons_succ, ← older]
      apply Function.update_of_ne
      intro same
      rcases Nat.lt_or_ge (r.next + size - 1 - k) size with inside | wraps
      · rw [Nat.mod_eq_of_lt inside] at same
        omega
      · rw [Nat.mod_eq_sub_mod wraps, Nat.mod_eq_of_lt (by omega)] at same
        omega

theorem Holds.change (holds : Holds size blank r history) {f : α → α} (kept : f blank = blank) :
    Holds size blank (r.change size f) (history.map f) where
  next := holds.next
  slot k small := by
    have inside := Nat.mod_lt (r.next + size - 1 - k) (Nat.lt_of_le_of_lt (Nat.zero_le k) small)
    unfold Ring.change
    dsimp only
    rw [if_pos inside, holds.slot k small, List.getD_eq_getElem?_getD, List.getD_eq_getElem?_getD,
      List.getElem?_map]
    cases history[k]? with
    | none => exact kept
    | some a => rfl

/-- What is in some slot is in one of the latest entries. -/
theorem Holds.found (holds : Holds size blank r history) {p : α → Prop} (none : ¬ p blank) :
    (∃ i < size, p (r.slots i)) ↔ ∃ a ∈ history.take size, p a := by
  have low := holds.next
  constructor
  · rintro ⟨i, small, here⟩
    -- the age of the entry in the slot
    obtain ⟨k, young, same⟩ : ∃ k < size, (r.next + size - 1 - k) % size = i := by
      rcases Nat.lt_or_ge i r.next with before | behind
      · refine ⟨r.next - 1 - i, by omega, ?_⟩
        rw [show r.next + size - 1 - (r.next - 1 - i) = i + size by omega, Nat.add_mod_right,
          Nat.mod_eq_of_lt small]
      · refine ⟨r.next + size - 1 - i, by omega, ?_⟩
        rw [show r.next + size - 1 - (r.next + size - 1 - i) = i by omega, Nat.mod_eq_of_lt small]
    have entry := holds.slot k young
    rw [same, List.getD_eq_getElem?_getD] at entry
    rw [entry] at here
    cases found : history[k]? with
    | none =>
      rw [found] at here
      exact absurd here none
    | some a =>
      rw [found] at here
      obtain ⟨short, isEntry⟩ := List.getElem?_eq_some_iff.mp found
      exact ⟨a, List.mem_take_iff_getElem.mpr ⟨k, by omega, isEntry⟩, here⟩
  · rintro ⟨a, inside, here⟩
    obtain ⟨k, short, rfl⟩ := List.mem_take_iff_getElem.mp inside
    have entry := holds.slot k (by omega)
    rw [List.getD_eq_getElem?_getD, List.getElem?_eq_getElem (by omega), Option.getD_some] at entry
    exact ⟨_, Nat.mod_lt _ (by omega), entry ▸ here⟩

end

/-! ## Histories -/

/-- An entry is written, or something is removed from all entries so far. -/
inductive Event (α κ : Type) where
  | read (a : α)
  | clear (key : κ)

/-- How many entries are written. -/
def reads : List (Event α κ) → Nat
  | [] => 0
  | .read _ :: rest => reads rest + 1
  | .clear _ :: rest => reads rest

section
variable (drop : κ → α → α)

/-- The entries behind a list of events, the latest first, as they are by now. -/
def entries : List (Event α κ) → List α
  | [] => []
  | .read a :: earlier => a :: entries earlier
  | .clear key :: earlier => (entries earlier).map (drop key)

/-- A ring behind a list of events, the latest first. -/
def Ring.run (size : Nat) (blank : α) : List (Event α κ) → Ring α
  | [] => .start blank
  | .read a :: earlier => (Ring.run size blank earlier).record size a
  | .clear key :: earlier => (Ring.run size blank earlier).change size (drop key)

variable {drop}

theorem holds_run {size : Nat} {blank : α} (some : 0 < size) (kept : ∀ key, drop key blank = blank)
    (events : List (Event α κ)) :
    Holds size blank (Ring.run drop size blank events) (entries drop events) := by
  induction events with
  | nil => exact .start some
  | cons e earlier ih =>
    cases e with
    | read a => exact ih.record a
    | clear key => exact ih.change (kept key)

/-- What the latest entries show was in an entry when it was written, and was not removed
since. -/
theorem shown_iff {shows : α → κ → Prop}
    (drops : ∀ key a k, shows (drop key a) k ↔ shows a k ∧ k ≠ key) {size : Nat} {key : κ}
    {events : List (Event α κ)} :
    (∃ a ∈ (entries drop events).take size, shows a key) ↔
      ∃ later a earlier, events = later ++ .read a :: earlier ∧ reads later < size ∧
        shows a key ∧ .clear key ∉ later := by
  -- On the events, the latest first; one that is read takes a place of the window.
  induction events generalizing size with
  | nil => simp [entries]
  | cons e earlier ih =>
    cases e with
    | read a =>
      cases size with
      | zero => simp [entries]
      | succ size =>
        rw [entries, List.take_succ_cons, List.exists_mem_cons_iff, ih]
        constructor
        · rintro (here | ⟨later, b, before, rfl, few, there, kept⟩)
          · exact ⟨[], a, earlier, rfl, Nat.succ_pos size, here, List.not_mem_nil⟩
          · exact ⟨.read a :: later, b, before, rfl, Nat.succ_lt_succ few, there, by simpa using kept⟩
        · rintro ⟨later, b, before, split, few, there, kept⟩
          cases later with
          | nil =>
            cases split
            exact .inl there
          | cons e later =>
            cases split
            refine .inr ⟨later, b, before, rfl, Nat.lt_of_succ_lt_succ few, there, ?_⟩
            exact fun inside => kept (List.mem_cons_of_mem _ inside)
    | clear k =>
      have removed : (∃ a ∈ ((entries drop earlier).map (drop k)).take size, shows a key) ↔
          key ≠ k ∧ ∃ a ∈ (entries drop earlier).take size, shows a key := by
        rw [← List.map_take]
        simp only [List.mem_map, exists_exists_and_eq_and, drops]
        exact ⟨fun ⟨a, inside, here, other⟩ => ⟨other, a, inside, here⟩,
          fun ⟨other, a, inside, here⟩ => ⟨a, inside, here, other⟩⟩
      rw [entries, removed, ih]
      constructor
      · rintro ⟨other, later, b, before, rfl, few, there, kept⟩
        refine ⟨.clear k :: later, b, before, rfl, few, there, ?_⟩
        simp only [List.mem_cons, Event.clear.injEq, not_or]
        exact ⟨other, kept⟩
      · rintro ⟨later, b, before, split, few, there, kept⟩
        cases later with
        | nil => cases split
        | cons e later =>
          cases split
          simp only [List.mem_cons, Event.clear.injEq, not_or] at kept
          exact ⟨kept.1, later, b, before, rfl, few, there, kept.2⟩

/-- A ring shows what one of the latest entries had and nothing removed since. -/
theorem window_iff {shows : α → κ → Prop} {size : Nat} {blank : α} (some : 0 < size)
    (empty : ∀ key, ¬ shows blank key) (kept : ∀ key, drop key blank = blank)
    (drops : ∀ key a k, shows (drop key a) k ↔ shows a k ∧ k ≠ key) (key : κ)
    (events : List (Event α κ)) :
    (∃ i < size, shows ((Ring.run drop size blank events).slots i) key) ↔
      ∃ later a earlier, events = later ++ .read a :: earlier ∧ reads later < size ∧
        shows a key ∧ .clear key ∉ later :=
  ((holds_run some kept events).found (empty key)).trans (shown_iff drops)

end

end Window
