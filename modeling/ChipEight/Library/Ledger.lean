import Mathlib.Data.List.Range
import Mathlib.Data.List.Perm.Basic

/-! Resources that are handed out by number and have to be given back once.

A ledger carries its own balance: every resource that was made is in one place, and in one only.
-/

set_option autoImplicit false

structure Ledger where
  /-- Resources are numbered in the order they are made. -/
  made : Nat
  held : List Nat
  released : List Nat
  /-- Nobody knows of these any more. -/
  lost : List Nat
  balanced : (released ++ held ++ lost).Perm (List.range made)

namespace Ledger

def empty : Ledger := ⟨0, [], [], [], .refl []⟩

/-- Make a resource and keep it. -/
def hold (l : Ledger) : Ledger where
  made := l.made + 1
  held := l.held ++ [l.made]
  released := l.released
  lost := l.lost
  balanced := by
    rw [List.range_succ, ← List.append_assoc, List.append_assoc (l.released ++ l.held)]
    exact (List.perm_append_comm.append_left _).trans
      (by rw [← List.append_assoc]; exact l.balanced.append_right _)

/-- Make a resource that will not be given back. -/
def lose (l : Ledger) : Ledger where
  made := l.made + 1
  held := l.held
  released := l.released
  lost := l.lost ++ [l.made]
  balanced := by
    rw [List.range_succ, ← List.append_assoc]
    exact l.balanced.append_right _

def releaseAll (l : Ledger) : Ledger where
  made := l.made
  held := []
  released := l.released ++ l.held
  lost := l.lost
  balanced := by
    rw [List.append_nil]
    exact l.balanced

section
variable (l : Ledger)

theorem all_nodup : (l.released ++ l.held ++ l.lost).Nodup :=
  l.balanced.nodup_iff.mpr List.nodup_range

/-- Nothing is given back twice. -/
theorem released_nodup : l.released.Nodup :=
  (List.nodup_append.mp (List.nodup_append.mp l.all_nodup).1).1

theorem held_nodup : l.held.Nodup :=
  (List.nodup_append.mp (List.nodup_append.mp l.all_nodup).1).2.1

theorem mem_made {h : Nat} : h < l.made ↔ h ∈ l.released ∨ h ∈ l.held ∨ h ∈ l.lost := by
  rw [← List.mem_range, ← l.balanced.mem_iff, List.mem_append, List.mem_append, or_assoc]

/-- What is held or lost has not been given back. -/
theorem not_released {h : Nat} (kept : h ∈ l.held ∨ h ∈ l.lost) : h ∉ l.released := by
  intro gone
  have apart := List.nodup_append.mp l.all_nodup
  rcases kept with held | lost
  · exact (List.nodup_append.mp apart.1).2.2 h gone h held rfl
  · exact apart.2.2 h (List.mem_append_left _ gone) h lost rfl

end

end Ledger
