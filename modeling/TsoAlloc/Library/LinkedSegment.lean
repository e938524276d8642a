/-
This file treats singly linked lists whose links are a function from nodes to
nodes, ended by a null node. `Linked next null head nodes` says that following
the links from `head` visits exactly `nodes` and then reaches null; since the
visited nodes form a finite list, such a walk ends and has no cycle. A link
function decides its walk, a walk reads only the links of its own nodes, and the
two edits of a list are the insertion of a node and the removal of one, each at
the head or behind another node.
-/

import Mathlib.Data.List.Basic
import Mathlib.Logic.Function.Iterate

namespace LinkedSegment

variable {Node : Type*}

/-- Following `next` from `head` visits exactly `nodes`, none of them null, and then stands
at `stop`. -/
def Segment (next : Node → Node) (null : Node) : Node → List Node → Node → Prop
  | head, [], stop => head = stop
  | head, node :: nodes, stop =>
    head = node ∧ node ≠ null ∧ Segment next null (next node) nodes stop

/-- Following `next` from `head` visits exactly `nodes` and then reaches null. -/
def Linked (next : Node → Node) (null head : Node) (nodes : List Node) : Prop :=
  Segment next null head nodes null

variable {next changed : Node → Node} {null head stop : Node}

instance [DecidableEq Node] (next : Node → Node) (null : Node) :
    ∀ (head : Node) (nodes : List Node) (stop : Node), Decidable (Segment next null head nodes stop)
  | head, [], stop => inferInstanceAs (Decidable (head = stop))
  | _, node :: nodes, stop =>
    have := instDecidableSegmentOfDecidableEq next null (next node) nodes stop
    inferInstanceAs (Decidable (_ ∧ _ ∧ _))

/-- A walk over a concatenation is a walk over each half, joined at the seam. -/
theorem segment_append {front back : List Node} :
    Segment next null head (front ++ back) stop ↔
      ∃ seam, Segment next null head front seam ∧ Segment next null seam back stop := by
  induction front generalizing head with
  | nil =>
    constructor
    · intro walk
      exact ⟨head, rfl, walk⟩
    · rintro ⟨seam, rfl, walk⟩
      exact walk
  | cons node nodes inductionHypothesis =>
    constructor
    · rintro ⟨here, valid, walk⟩
      obtain ⟨seam, first, second⟩ := inductionHypothesis.mp walk
      exact ⟨seam, ⟨here, valid, first⟩, second⟩
    · rintro ⟨seam, ⟨here, valid, first⟩, second⟩
      exact ⟨here, valid, inductionHypothesis.mpr ⟨seam, first, second⟩⟩

/-- A walk whose next stop is a given node goes on from that node. -/
theorem segment_append_cons {front back : List Node} {node : Node} :
    Segment next null head (front ++ node :: back) stop ↔
      Segment next null head front node ∧ node ≠ null ∧
        Segment next null (next node) back stop := by
  rw [segment_append]
  constructor
  · rintro ⟨seam, first, rfl, valid, second⟩
    exact ⟨first, valid, second⟩
  · rintro ⟨first, valid, second⟩
    exact ⟨node, first, rfl, valid, second⟩

theorem Segment.transport {nodes : List Node} (walk : Segment next null head nodes stop)
    (agree : ∀ node ∈ nodes, changed node = next node) :
    Segment changed null head nodes stop := by
  induction nodes generalizing head with
  | nil => exact walk
  | cons node nodes inductionHypothesis =>
    obtain ⟨here, valid, rest⟩ := walk
    refine ⟨here, valid, ?_⟩
    rw [agree node List.mem_cons_self]
    exact inductionHypothesis rest fun other member => agree other (List.mem_cons_of_mem _ member)

/-- The link of a node of a walk leads to a node of the walk or to its stop. -/
theorem Segment.next_mem {nodes : List Node} (walk : Segment next null head nodes stop) :
    ∀ node ∈ nodes, next node ∈ nodes ∨ next node = stop := by
  induction nodes generalizing head with
  | nil => exact fun node member => absurd member List.not_mem_nil
  | cons first nodes inductionHypothesis =>
    obtain ⟨_, _, rest⟩ := walk
    intro node member
    rcases List.mem_cons.mp member with rfl | member
    · cases nodes with
      | nil => exact Or.inr rest
      | cons second nodes =>
        left
        rw [rest.1]
        exact List.mem_cons_of_mem _ List.mem_cons_self
    · exact (inductionHypothesis rest node member).imp_left (List.mem_cons_of_mem _)

/-- A walk that is closed into a circle stays on its nodes. -/
theorem iterate_mem {nodes : List Node} (closed : ∀ node ∈ nodes, next node ∈ nodes)
    (start : head ∈ nodes) (count : Nat) : next^[count] head ∈ nodes := by
  induction count with
  | zero => exact start
  | succ count inductionHypothesis =>
    rw [Function.iterate_succ_apply']
    exact closed _ inductionHypothesis

/-- The links decide the walk: from one head there is only one linked list. -/
theorem Linked.unique {left right : List Node} (first : Linked next null head left)
    (second : Linked next null head right) : left = right := by
  induction left generalizing head right with
  | nil =>
    cases right with
    | nil => rfl
    | cons node nodes =>
      obtain ⟨here, valid, _⟩ := second
      exact absurd (here ▸ first) valid
  | cons node nodes inductionHypothesis =>
    obtain ⟨here, valid, rest⟩ := first
    cases right with
    | nil => exact absurd (here ▸ second) valid
    | cons other others =>
      obtain ⟨there, _, restOther⟩ := second
      obtain rfl : node = other := here ▸ there
      rw [inductionHypothesis rest restOther]

theorem linked_cons {node : Node} {nodes : List Node} :
    Linked next null head (node :: nodes) ↔
      head = node ∧ node ≠ null ∧ Linked next null (next node) nodes := Iff.rfl

theorem Linked.head_eq_null {nodes : List Node} (walk : Linked next null head nodes) :
    head = null ↔ nodes = [] := by
  cases nodes with
  | nil => exact iff_of_true walk rfl
  | cons node nodes =>
    obtain ⟨here, valid, _⟩ := walk
    exact iff_of_false (here ▸ valid) (List.cons_ne_nil _ _)

/-! ### Edits -/

/-- Putting a node before the head: the new node links to the old head. -/
theorem Linked.push {nodes : List Node} {node : Node} (walk : Linked next null head nodes)
    (valid : node ≠ null) (link : changed node = head)
    (agree : ∀ other ∈ nodes, changed other = next other) :
    Linked changed null node (node :: nodes) :=
  ⟨rfl, valid, link ▸ Segment.transport walk agree⟩

/-- Putting a node behind another: the new node takes over the link of the other, which now
links to the new node. -/
theorem Linked.insert {front back : List Node} {behind node : Node}
    (walk : Linked next null head (front ++ behind :: back)) (valid : node ≠ null)
    (link : changed node = next behind) (relink : changed behind = node)
    (agreeFront : ∀ other ∈ front, changed other = next other)
    (agreeBack : ∀ other ∈ back, changed other = next other) :
    Linked changed null head (front ++ behind :: node :: back) := by
  obtain ⟨first, validBehind, second⟩ := segment_append_cons.mp walk
  refine segment_append_cons.mpr ⟨first.transport agreeFront, validBehind, ?_⟩
  rw [relink]
  exact Linked.push second valid link agreeBack

/-- Removing the node behind another: the other takes over the removed node's link. -/
theorem Linked.remove {front back : List Node} {behind node : Node}
    (walk : Linked next null head (front ++ behind :: node :: back))
    (relink : changed behind = next node)
    (agreeFront : ∀ other ∈ front, changed other = next other)
    (agreeBack : ∀ other ∈ back, changed other = next other) :
    Linked changed null head (front ++ behind :: back) := by
  obtain ⟨first, validBehind, _, _, second⟩ := segment_append_cons.mp walk
  refine segment_append_cons.mpr ⟨first.transport agreeFront, validBehind, ?_⟩
  rw [relink]
  exact second.transport agreeBack

end LinkedSegment
