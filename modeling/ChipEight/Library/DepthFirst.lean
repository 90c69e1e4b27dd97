import Mathlib.Data.List.Chain
import Mathlib.Data.List.Nodup
import Mathlib.Data.Set.Insert

/-! The order of a depth-first search.

A search keeps a list of the nodes it still looks at. It takes off the first one and, if that
is new, puts the successors of it in front. What it visits later can be told from the graph
alone: a node is later than `p` if along some route to `p` every route to it goes on from the
end or turns off to a later successor.
-/

set_option autoImplicit false

namespace DepthFirst

section
variable {V : Type} (next : V → List V) (root : V)

/-! ## Routes -/

/-- A path from the root that meets no node twice. -/
structure Route (path : List V) (v : V) : Prop where
  start : path.head? = some root
  edges : path.IsChain fun v w => w ∈ next v
  simple : path.Nodup
  last : path.getLast? = some v

/-- `b` is a successor of `v` behind `a`. -/
def After (v a b : V) : Prop := ∃ done rest, next v = done ++ a :: rest ∧ b ∈ rest

/-- A path goes on from the end of another, or turns off it to a later successor. -/
inductive Behind (path other : List V) : Prop where
  | on {b : V} {more : List V} (whole : other = path ++ b :: more)
  | off {front back more : List V} {v a b : V} (here : path = front ++ v :: a :: back)
      (there : other = front ++ v :: b :: more) (after : After next v a b)

/-- Every route to `q` is behind one route to `p`. -/
def Before (p q : V) : Prop :=
  ∃ path, Route next root path p ∧ ∀ other, Route next root other q → Behind next path other

/-! ## Frames -/

/-- A node whose successors are being looked at, and those that are left. -/
structure Frame (V : Type) where
  node : V
  rest : List V

/-- The path to the innermost frame, which is the first. -/
def pathOf (frames : List (Frame V)) : List V := (frames.map Frame.node).reverse

variable {next root}

@[simp] theorem pathOf_cons (f : Frame V) (fs : List (Frame V)) :
    pathOf (f :: fs) = pathOf fs ++ [f.node] := by
  unfold pathOf
  rw [List.map_cons, List.reverse_cons]

theorem pathOf_append (inner outer : List (Frame V)) :
    pathOf (inner ++ outer) = pathOf outer ++ pathOf inner := by
  unfold pathOf
  rw [List.map_append, List.reverse_append]

variable (next root)

/-- The node of each frame is the successor of the next one that was taken last. -/
def Lined : List (Frame V) → Prop
  | [] => True
  | [f] => f.node = root
  | g :: f :: fs => (∃ done, next f.node = done ++ g.node :: f.rest) ∧ Lined (f :: fs)

/-- A path leaves the frames to a successor that is left. -/
def Exits (frames : List (Frame V)) (other : List V) : Prop :=
  ∃ inner f outer b more, frames = inner ++ f :: outer ∧
    other = pathOf (f :: outer) ++ b :: more ∧ b ∈ f.rest

/-- What holds of a search that has begun. -/
structure Search (visited : Set V) (frames : List (Frame V)) : Prop where
  lined : Lined next root frames
  current : ∀ f fs, frames = f :: fs → ∃ done, next f.node = done ++ f.rest
  known : ∀ v ∈ pathOf frames, v ∈ visited
  simple : (pathOf frames).Nodup
  handed : ∀ f ∈ frames, ∀ w ∈ next f.node, w ∈ visited ∨ w ∈ f.rest
  closed : ∀ v ∈ visited, v ∉ pathOf frames → ∀ w ∈ next v, w ∈ visited
  frontier : ∀ other q, Route next root other q → q ∉ visited → Exits frames other
  reached : ∀ v ∈ visited, ∃ path, Route next root path v

variable {next root}
variable {visited : Set V} {frames fs : List (Frame V)} {v w p q : V} {rest : List V}

theorem lined_tail {f : Frame V} (lined : Lined next root (f :: fs)) : Lined next root fs := by
  cases fs with
  | nil => exact True.intro
  | cons g fs => exact lined.2

theorem lined_append {inner outer : List (Frame V)} (lined : Lined next root (inner ++ outer)) :
    Lined next root outer := by
  induction inner with
  | nil => exact lined
  | cons f inner ih => exact ih (lined_tail lined)

/-- The frames stand on a path from the root. -/
theorem lined_path {f : Frame V} (lined : Lined next root (f :: fs)) :
    (pathOf (f :: fs)).head? = some root ∧
      (pathOf (f :: fs)).IsChain fun v w => w ∈ next v := by
  induction fs generalizing f with
  | nil =>
    rw [pathOf_cons]
    exact ⟨congrArg some lined, List.isChain_singleton _⟩
  | cons g fs ih =>
    obtain ⟨⟨done, successors⟩, outer⟩ := lined
    obtain ⟨start, edges⟩ := ih outer
    rw [pathOf_cons]
    constructor
    · rw [List.head?_append, start]
      rfl
    · refine List.isChain_append.mpr ⟨edges, List.isChain_singleton _, ?_⟩
      intro v last w first
      rw [pathOf_cons, List.getLast?_concat] at last
      cases last
      cases first
      rw [successors]
      exact List.mem_append_right done List.mem_cons_self

theorem Search.route {f : Frame V} (search : Search next root visited (f :: fs)) :
    Route next root (pathOf (f :: fs)) f.node where
  start := (lined_path search.lined).1
  edges := (lined_path search.lined).2
  simple := search.simple
  last := by rw [pathOf_cons, List.getLast?_concat]

/-! ## Steps -/

/-- Among visited nodes that are in no frame a path stays among visited nodes. -/
theorem closed_along {nodes more : List V}
    (closed : ∀ v ∈ visited, v ∉ nodes → ∀ w ∈ next v, w ∈ visited)
    (edges : (v :: more).IsChain fun v w => w ∈ next v) (apart : ∀ x ∈ v :: more, x ∉ nodes)
    (here : v ∈ visited) : ∀ x ∈ v :: more, x ∈ visited := by
  induction more generalizing v with
  | nil =>
    intro x inside
    rw [List.mem_singleton.mp inside]
    exact here
  | cons w more ih =>
    obtain ⟨edge, later⟩ := List.isChain_cons_cons.mp edges
    obtain ⟨free, apart⟩ := List.forall_mem_cons.mp apart
    exact List.forall_mem_cons.mpr ⟨here, ih later apart (closed v here free w edge)⟩

theorem Search.start : Search next root {root} [⟨root, next root⟩] where
  lined := rfl
  current f fs same := by
    cases same
    exact ⟨[], rfl⟩
  known v here := List.mem_singleton.mp here
  simple := List.nodup_singleton root
  handed f here w successor := by
    cases List.mem_singleton.mp here
    exact .inr successor
  closed v here apart := absurd (List.mem_singleton.mpr here) apart
  frontier other q route fresh := by
    obtain ⟨start, edges, -, last⟩ := route
    cases other with
    | nil => cases start
    | cons x more =>
      cases start
      cases more with
      | nil =>
        cases last
        exact absurd rfl fresh
      | cons b more =>
        exact ⟨[], _, [], b, more, rfl, rfl, (List.isChain_cons_cons.mp edges).1⟩
  reached v here := by
    cases here
    exact ⟨[root], rfl, List.isChain_singleton root, List.nodup_singleton root, rfl⟩

/-- A successor that was visited is passed over. -/
theorem Search.skip (search : Search next root visited (⟨v, w :: rest⟩ :: fs))
    (old : w ∈ visited) : Search next root visited (⟨v, rest⟩ :: fs) := by
  obtain ⟨lined, current, known, simple, handed, closed, frontier, reached⟩ := search
  refine ⟨?_, ?_, known, simple, ?_, closed, ?_, reached⟩
  · cases fs with
    | nil => exact lined
    | cons f fs => exact lined
  · intro f fs' same
    cases same
    obtain ⟨done, successors⟩ := current _ _ rfl
    exact ⟨done ++ [w], by rw [successors, List.append_assoc]; rfl⟩
  · refine List.forall_mem_cons.mpr ⟨fun x successor => ?_, (List.forall_mem_cons.mp handed).2⟩
    obtain seen | left := (List.forall_mem_cons.mp handed).1 x successor
    · exact .inl seen
    · obtain rfl | later := List.mem_cons.mp left
      · exact .inl old
      · exact .inr later
  · intro other q route fresh
    obtain ⟨inner, f, outer, b, more, same, whole, left⟩ := frontier other q route fresh
    -- Only a route that turns off at the top frame is concerned.
    cases inner with
    | cons g inner =>
      cases same
      exact ⟨_ :: inner, f, outer, b, more, rfl, whole, left⟩
    | nil =>
      cases same
      obtain rfl | later := List.mem_cons.mp left
      · -- A route through the visited successor would stay among visited nodes.
        rw [whole] at route
        have edges := (List.isChain_append.mp route.edges).2.1
        have apart := List.disjoint_of_nodup_append route.simple
        have stays := closed_along closed edges (fun x there here => apart here there) old
        refine absurd (stays q ?_) fresh
        have last := route.last
        rw [List.getLast?_append_cons] at last
        exact List.mem_of_getLast? last
      · exact ⟨[], _, fs, b, more, rfl, whole, later⟩

/-- A node all of whose successors were looked at is left. -/
theorem Search.leave (search : Search next root visited (⟨v, []⟩ :: fs)) :
    Search next root visited fs := by
  obtain ⟨lined, current, known, simple, handed, closed, frontier, reached⟩ := search
  rw [pathOf_cons] at known simple closed
  refine ⟨lined_tail lined, ?_, fun x here => known x (List.mem_append_left _ here),
    (List.nodup_append.mp simple).1, (List.forall_mem_cons.mp handed).2, ?_, ?_, reached⟩
  · intro f fs' same
    cases same
    obtain ⟨⟨done, successors⟩, -⟩ := lined
    exact ⟨done ++ [v], by rw [successors, List.append_assoc]; rfl⟩
  · intro x here apart y successor
    by_cases this : x = v
    · subst this
      exact ((List.forall_mem_cons.mp handed).1 y successor).resolve_right List.not_mem_nil
    · refine closed x here (fun inside => ?_) y successor
      obtain old | new := List.mem_append.mp inside
      · exact apart old
      · exact this (List.mem_singleton.mp new)
  · intro other q route fresh
    obtain ⟨inner, f, outer, b, more, same, whole, left⟩ := frontier other q route fresh
    cases inner with
    | nil =>
      cases same
      cases left
    | cons g inner =>
      cases same
      exact ⟨inner, f, outer, b, more, rfl, whole, left⟩

/-- A new successor is visited. -/
theorem Search.visit (search : Search next root visited (⟨v, w :: rest⟩ :: fs))
    (new : w ∉ visited) :
    Search next root (insert w visited) (⟨w, next w⟩ :: ⟨v, rest⟩ :: fs) := by
  obtain ⟨lined, current, known, simple, handed, closed, frontier, reached⟩ := search
  have lines : Lined next root (⟨w, next w⟩ :: ⟨v, rest⟩ :: fs) := by
    refine ⟨current _ _ rfl, ?_⟩
    cases fs with
    | nil => exact lined
    | cons f fs => exact lined
  have same : pathOf (⟨v, rest⟩ :: fs) = pathOf (⟨v, w :: rest⟩ :: fs) := rfl
  -- The path gets longer by a node that was not visited, so it is still simple.
  have distinct : (pathOf (⟨w, next w⟩ :: ⟨v, rest⟩ :: fs)).Nodup := by
    rw [pathOf_cons, same, ← List.concat_eq_append, List.nodup_concat]
    exact ⟨fun here => new (known w here), simple⟩
  have here : Route next root (pathOf (⟨w, next w⟩ :: ⟨v, rest⟩ :: fs)) w :=
    ⟨(lined_path lines).1, (lined_path lines).2, distinct, by rw [pathOf_cons, List.getLast?_concat]⟩
  refine ⟨lines, ?_, ?_, distinct, ?_, ?_, ?_, ?_⟩
  · intro f fs' same
    cases same
    exact ⟨[], rfl⟩
  · intro x inside
    rw [pathOf_cons, same] at inside
    obtain old | this := List.mem_append.mp inside
    · exact .inr (known x old)
    · exact .inl (List.mem_singleton.mp this)
  · obtain ⟨first, others⟩ := List.forall_mem_cons.mp handed
    refine List.forall_mem_cons.mpr ⟨fun x successor => .inr successor,
      List.forall_mem_cons.mpr ⟨fun x successor => ?_, fun f inside x successor => ?_⟩⟩
    · obtain seen | left := first x successor
      · exact .inl (.inr seen)
      · exact (List.mem_cons.mp left).imp .inl id
    · exact (others f inside x successor).imp .inr id
  -- A visited node that has left the path has visited successors only.
  · rintro x (rfl | old) apart y successor
    · rw [pathOf_cons] at apart
      exact absurd (List.mem_append_right _ (List.mem_singleton.mpr rfl)) apart
    · rw [pathOf_cons, same] at apart
      exact .inr (closed x old (fun inside => apart (List.mem_append_left _ inside)) y successor)
  · intro other q route fresh
    -- A simple route to an unvisited node leaves the path at a frame, for a
    -- successor that is still to come.
    obtain ⟨inner, f, outer, b, more, same, whole, left⟩ :=
      frontier other q route fun old => fresh (.inr old)
    cases inner with
    | cons g inner =>
      cases same
      exact ⟨_ :: _ :: inner, f, outer, b, more, rfl, whole, left⟩
    | nil =>
      cases same
      obtain rfl | later := List.mem_cons.mp left
      · -- The route goes through the new node, and has to go on from there.
        cases more with
        | nil =>
          have last := route.last
          rw [whole, List.getLast?_concat] at last
          cases last
          exact absurd (.inl rfl) fresh
        | cons c more =>
          refine ⟨[], _, _, c, more, rfl, ?_, ?_⟩
          · rw [whole, pathOf_cons ⟨b, next b⟩, List.append_assoc]
            rfl
          · have edges := route.edges
            rw [whole] at edges
            exact (List.isChain_cons_cons.mp (List.isChain_append.mp edges).2.1).1
      · exact ⟨[_], _, fs, b, more, rfl, whole, later⟩
  · rintro x (rfl | old)
    · exact ⟨_, here⟩
    · exact reached x old

/-- What is not visited yet comes behind the node that was visited last. -/
theorem Search.before (search : Search next root visited (⟨p, next p⟩ :: fs)) (fresh : q ∉ visited) :
    Before next root p q := by
  refine ⟨_, search.route, fun other route => ?_⟩
  obtain ⟨inner, f, outer, b, more, same, whole, left⟩ := search.frontier other q route fresh
  obtain rfl | ⟨inner, g, rfl⟩ := List.eq_nil_or_concat' inner
  · cases same
    exact .on whole
  · rw [List.append_assoc] at same
    have lined := search.lined
    rw [same] at lined
    obtain ⟨⟨done, successors⟩, -⟩ := lined_append lined
    have here : pathOf (⟨p, next p⟩ :: fs) = pathOf outer ++ f.node :: g.node :: pathOf inner := by
      rw [same, pathOf_append, List.singleton_append, pathOf_cons, pathOf_cons, List.append_assoc,
        List.append_assoc]
      rfl
    rw [pathOf_cons, List.append_assoc] at whole
    exact .off here whole ⟨done, f.rest, successors, left⟩

/-- What is left to look at, the innermost frame first. -/
def todo (frames : List (Frame V)) : List V := frames.flatMap Frame.rest

variable (next root)

/-- A search that has `left` to look at. It may have no root to begin at. -/
inductive Searching (visited : Set V) (left : List V) : Prop where
  | idle (none : visited = ∅) (only : left = [] ∨ left = [root])
  | inside {frames : List (Frame V)} (search : Search next root visited frames)
      (same : left = todo frames)

variable {next root}
variable {left : List V}

/-- Frames without successors left are left themselves. -/
theorem Search.next_frame (search : Search next root visited frames) (same : w :: left = todo frames) :
    ∃ v rest fs, Search next root visited (⟨v, w :: rest⟩ :: fs) ∧ left = rest ++ todo fs := by
  induction frames with
  | nil => cases same
  | cons f fs ih =>
    obtain ⟨v, rest⟩ := f
    cases rest with
    | nil => exact ih search.leave same
    | cons x rest =>
      obtain ⟨rfl, rfl⟩ := List.cons.inj same
      exact ⟨v, rest, fs, search, rfl⟩

theorem Searching.skip (searching : Searching next root visited (w :: left)) (old : w ∈ visited) :
    Searching next root visited left := by
  cases searching with
  | idle none only =>
    rw [none] at old
    cases old
  | inside search same =>
    obtain ⟨v, rest, fs, search, rfl⟩ := search.next_frame same
    exact .inside (search.skip old) rfl

/-- A new node is visited, and what is still new then comes behind it. -/
theorem Searching.visit (searching : Searching next root visited (w :: left)) (new : w ∉ visited) :
    Searching next root (insert w visited) (next w ++ left) ∧
      ∀ q ∉ insert w visited, Before next root w q := by
  cases searching with
  | idle none only =>
    obtain nothing | only := only
    · cases nothing
    cases only
    have start : Search next root (insert root visited) [⟨root, next root⟩] := by
      rw [none, insert_empty_eq]
      exact .start
    exact ⟨.inside start rfl, fun q fresh => start.before fresh⟩
  | inside search same =>
    obtain ⟨v, rest, fs, search, rfl⟩ := search.next_frame same
    have visits := search.visit new
    exact ⟨.inside visits rfl, fun q fresh => visits.before fresh⟩

theorem Searching.reached (searching : Searching next root visited left) (here : v ∈ visited) :
    ∃ path, Route next root path v := by
  cases searching with
  | idle none only =>
    rw [none] at here
    cases here
  | inside search same => exact search.reached v here

end

end DepthFirst
