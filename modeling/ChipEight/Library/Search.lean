import Mathlib.Logic.Relation

/-! Searching a graph with a worklist.

A search marks nodes and keeps some pending. Whatever order it takes them in, it never
loses a node if every edge out of a marked node leads to a marked or a pending one; once
nothing is pending the marked nodes are closed under the edges. If it marks only what a
path leads to, these are all the nodes there is a path to.
-/

set_option autoImplicit false

namespace Search

section
variable {V : Type} {root : V → Prop} {edge : V → V → Prop}

/-- No node the search has to find is lost. -/
structure Covers (root : V → Prop) (edge : V → V → Prop) (marked pending : V → Prop) :
    Prop where
  roots : ∀ v, root v → marked v ∨ pending v
  edges : ∀ v w, marked v → edge v w → marked w ∨ pending w

theorem Covers.start : Covers root edge (fun _ => False) root where
  roots _ isRoot := .inr isRoot
  edges _ _ none := none.elim

/-- Pending nodes may be dropped once they are marked. -/
theorem Covers.drop {marked pending pending' : V → Prop} (covers : Covers root edge marked pending)
    (rest : ∀ v, pending v → marked v ∨ pending' v) : Covers root edge marked pending' where
  roots v isRoot := (covers.roots v isRoot).elim .inl (rest v)
  edges v w mark follows := (covers.edges v w mark follows).elim .inl (rest w)

/-- A node is marked when its successors become pending. -/
theorem Covers.visit {marked marked' pending pending' : V → Prop} {u : V}
    (covers : Covers root edge marked pending) (old : ∀ v, marked v → marked' v)
    (new : ∀ v, marked' v → marked v ∨ v = u) (here : marked' u)
    (rest : ∀ v, pending v → v = u ∨ pending' v)
    (successors : ∀ w, edge u w → marked' w ∨ pending' w) :
    Covers root edge marked' pending' := by
  have moved (v : V) (known : marked v ∨ pending v) : marked' v ∨ pending' v := by
    obtain mark | waits := known
    · exact .inl (old v mark)
    · obtain rfl | waits' := rest v waits
      · exact .inl here
      · exact .inr waits'
  refine ⟨fun v isRoot => moved v (covers.roots v isRoot), ?_⟩
  intro v w mark follows
  obtain before | rfl := new v mark
  · exact moved w (covers.edges v w before follows)
  · exact successors w follows

/-- At the end the marked nodes are closed under the edges. -/
theorem Covers.closed {marked pending : V → Prop} (covers : Covers root edge marked pending)
    (done : ∀ v, ¬ pending v) :
    (∀ v, root v → marked v) ∧ ∀ v w, marked v → edge v w → marked w :=
  ⟨fun v isRoot => (covers.roots v isRoot).resolve_right (done v),
    fun v w mark follows => (covers.edges v w mark follows).resolve_right (done w)⟩

/-- A path of edges leads to the node from a root. -/
def Reachable (root : V → Prop) (edge : V → V → Prop) (v : V) : Prop :=
  ∃ r, root r ∧ Relation.ReflTransGen edge r v

theorem Reachable.start {v : V} (isRoot : root v) : Reachable root edge v := ⟨v, isRoot, .refl⟩

theorem Reachable.step {v w : V} (known : Reachable root edge v) (follows : edge v w) :
    Reachable root edge w := by
  obtain ⟨r, isRoot, path⟩ := known
  exact ⟨r, isRoot, path.tail follows⟩

/-- At the end a search that marks only what it can reach has marked all of it. -/
theorem Covers.exact {marked pending : V → Prop} (covers : Covers root edge marked pending)
    (done : ∀ v, ¬ pending v) (sound : ∀ v, marked v → Reachable root edge v) (v : V) :
    marked v ↔ Reachable root edge v := by
  obtain ⟨roots, edges⟩ := covers.closed done
  refine ⟨sound v, ?_⟩
  rintro ⟨r, isRoot, path⟩
  induction path with
  | refl => exact roots r isRoot
  | tail _ follows ih => exact edges _ _ ih follows

end

end Search
