import Mathlib.Data.List.Nodup

/-! Straight-line code in static single assignment form.

An instruction defines at most one name and uses some. Code grows at its end, where an
instruction may use what is defined above it and has to define a new name.
-/

set_option autoImplicit false

namespace Straight

section
variable {I N : Type} {dst : I → Option N} {uses : I → List N}

/-- The names the code defines, in order. -/
def definitions (dst : I → Option N) (code : List I) : List N := code.filterMap dst

@[simp] theorem definitions_nil : definitions dst [] = [] := rfl

theorem definitions_append (above below : List I) :
    definitions dst (above ++ below) = definitions dst above ++ definitions dst below :=
  List.filterMap_append

theorem definitions_snoc (code : List I) (i : I) :
    definitions dst (code ++ [i]) = definitions dst code ++ (dst i).toList := by
  rw [definitions_append]
  cases h : dst i <;> simp [definitions, h]

theorem mem_definitions_snoc (code : List I) (i : I) (n : N) :
    n ∈ definitions dst (code ++ [i]) ↔ n ∈ definitions dst code ∨ dst i = some n := by
  rw [definitions_snoc, List.mem_append, Option.mem_toList]

/-- No name is defined twice and every use stands below its definition. -/
structure Ssa (dst : I → Option N) (uses : I → List N) (code : List I) : Prop where
  once : (definitions dst code).Nodup
  above : ∀ pre i post, code = pre ++ i :: post → ∀ n ∈ uses i, n ∈ definitions dst pre

theorem Ssa.nil : Ssa dst uses [] where
  once := List.nodup_nil
  above := by
    intro pre i post split
    cases pre <;> cases split

theorem Ssa.snoc {code : List I} (ssa : Ssa dst uses code) {i : I}
    (known : ∀ n ∈ uses i, n ∈ definitions dst code)
    (fresh : ∀ n, dst i = some n → n ∉ definitions dst code) : Ssa dst uses (code ++ [i]) where
  once := by
    rw [definitions_snoc]
    cases h : dst i with
    | none =>
      rw [Option.toList_none, List.append_nil]
      exact ssa.once
    | some n => exact ssa.once.append (List.nodup_singleton n) (by simpa using fresh n h)
  above := by
    intro pre j post split n used
    -- Either the use is in the new instruction or the code above it is split.
    rcases List.eq_nil_or_concat post with rfl | ⟨post, last, rfl⟩
    · obtain ⟨rfl, same⟩ := List.append_inj' split rfl
      cases same
      exact known n used
    · have shorter : code ++ [i] = (pre ++ j :: post) ++ [last] := by simpa using split
      exact ssa.above pre j post (List.append_inj' shorter rfl).1 n used

/-- Code that defines nothing extends what stands above it. -/
theorem Ssa.effect {code : List I} (ssa : Ssa dst uses code) {i : I} (silent : dst i = none)
    (known : ∀ n ∈ uses i, n ∈ definitions dst code) : Ssa dst uses (code ++ [i]) := by
  apply ssa.snoc known
  intro n defines
  rw [silent] at defines
  cases defines

end

end Straight
