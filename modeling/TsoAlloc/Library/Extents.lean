/-
This file treats lists of extents laid out one after another in an interval.
An extent is anything with a base and a top; `Packed lo hi` says that the extents
of a list follow each other in order, without overlap, between `lo` and `hi`.
Everything an allocator relies on follows from that one recursion: the order of
the bases, disjointness, the room on either side of a position in the list, the
two edits, and the fact that the gaps and the extents together fill the interval.
-/

import Mathlib.Algebra.BigOperators.Group.List.Basic
import Mathlib.Algebra.GroupWithZero.Nat
import Mathlib.Order.Interval.Set.Basic
import Mathlib.Data.List.Pairwise

namespace Extents

variable {Extent : Type*}

section Order

variable {Point : Type*} (base top : Extent → Point)

/-- Where the free room behind a list of extents begins. -/
def roomBase (lo : Point) : List Extent → Point
  | [] => lo
  | extent :: rest => roomBase (top extent) rest

/-- Where the free room before a list of extents ends. -/
def roomTop (hi : Point) : List Extent → Point
  | [] => hi
  | extent :: _ => base extent

/-- The extents follow each other without a gap from the lower bound on. -/
def Contiguous (lo : Point) : List Extent → Prop
  | [] => True
  | extent :: rest => base extent = lo ∧ Contiguous (top extent) rest

variable {base top} in
theorem contiguous_append {lo : Point} {front back : List Extent} :
    Contiguous base top lo (front ++ back) ↔
      Contiguous base top lo front ∧ Contiguous base top (roomBase top lo front) back := by
  induction front generalizing lo with
  | nil => exact (iff_of_eq (true_and _)).symm
  | cons extent rest inductionHypothesis =>
    rw [List.cons_append, Contiguous, Contiguous, inductionHypothesis, and_assoc]
    rfl

theorem roomBase_append_singleton (lo : Point) (front : List Extent) (extent : Extent) :
    roomBase top lo (front ++ [extent]) = top extent := by
  induction front generalizing lo with
  | nil => rfl
  | cons first rest inductionHypothesis => exact inductionHypothesis (top first)

variable [Preorder Point]

/-- The extents follow each other in order, without overlap, between the two bounds. -/
def Packed (lo hi : Point) : List Extent → Prop
  | [] => lo ≤ hi
  | extent :: rest => lo ≤ base extent ∧ base extent ≤ top extent ∧ Packed (top extent) hi rest

variable {base top} {lo hi : Point}

instance [DecidableLE Point] : ∀ (lo : Point) (extents : List Extent),
    Decidable (Packed base top lo hi extents)
  | _, [] => inferInstanceAs (Decidable (_ ≤ _))
  | _, extent :: rest =>
    have := instDecidablePackedOfDecidableLE (top extent) rest
    inferInstanceAs (Decidable (_ ∧ _ ∧ _))

theorem Packed.le {extents : List Extent} (packed : Packed base top lo hi extents) : lo ≤ hi := by
  induction extents generalizing lo with
  | nil => exact packed
  | cons extent rest inductionHypothesis =>
    obtain ⟨low, ordered, tail⟩ := packed
    exact low.trans (ordered.trans (inductionHypothesis tail))

/-- Packing a concatenation is packing each half, up to the room that the other leaves. -/
theorem packed_append {front back : List Extent} :
    Packed base top lo hi (front ++ back) ↔
      Packed base top lo (roomTop base hi back) front ∧
        Packed base top (roomBase top lo front) hi back := by
  induction front generalizing lo with
  | nil =>
    constructor
    · intro packed
      refine ⟨?_, packed⟩
      cases back with
      | nil => exact packed
      | cons extent rest => exact packed.1
    · exact fun packed => packed.2
  | cons extent rest inductionHypothesis =>
    constructor
    · rintro ⟨low, ordered, tail⟩
      obtain ⟨first, second⟩ := inductionHypothesis.mp tail
      exact ⟨⟨low, ordered, first⟩, second⟩
    · rintro ⟨⟨low, ordered, first⟩, second⟩
      exact ⟨low, ordered, inductionHypothesis.mpr ⟨first, second⟩⟩

/-- The upper bound may move as long as the room behind the extents stays. -/
theorem Packed.retop {higher : Point} {extents : List Extent}
    (packed : Packed base top lo hi extents) (room : roomBase top lo extents ≤ higher) :
    Packed base top lo higher extents := by
  induction extents generalizing lo with
  | nil => exact room
  | cons extent rest inductionHypothesis =>
    exact ⟨packed.1, packed.2.1, inductionHypothesis packed.2.2 room⟩

theorem Packed.rebase {lower : Point} {extents : List Extent}
    (packed : Packed base top lo hi extents) (room : lower ≤ roomTop base hi extents) :
    Packed base top lower hi extents := by
  cases extents with
  | nil => exact room
  | cons extent rest => exact ⟨room, packed.2⟩

theorem Packed.le_roomBase {extents : List Extent} (packed : Packed base top lo hi extents) :
    lo ≤ roomBase top lo extents := by
  induction extents generalizing lo with
  | nil => exact le_rfl
  | cons extent rest inductionHypothesis =>
    exact (packed.1.trans packed.2.1).trans (inductionHypothesis packed.2.2)

theorem Packed.roomTop_le {extents : List Extent} (packed : Packed base top lo hi extents) :
    roomTop base hi extents ≤ hi := by
  cases extents with
  | nil => exact le_rfl
  | cons extent rest => exact packed.2.1.trans packed.2.2.le

theorem Packed.le_roomTop {extents : List Extent} (packed : Packed base top lo hi extents) :
    lo ≤ roomTop base hi extents := by
  cases extents with
  | nil => exact packed
  | cons extent rest => exact packed.1

theorem Packed.within {extents : List Extent} (packed : Packed base top lo hi extents) :
    ∀ extent ∈ extents, lo ≤ base extent ∧ base extent ≤ top extent ∧ top extent ≤ hi := by
  induction extents generalizing lo with
  | nil => intro extent member; cases member
  | cons first rest inductionHypothesis =>
    obtain ⟨low, ordered, tail⟩ := packed
    intro extent member
    rcases List.mem_cons.mp member with rfl | member
    · exact ⟨low, ordered, tail.le⟩
    · obtain ⟨above, rest⟩ := inductionHypothesis tail extent member
      exact ⟨low.trans (ordered.trans above), rest⟩

/-- Of two extents the earlier one ends where the later one begins, or before. -/
theorem Packed.pairwise {extents : List Extent} (packed : Packed base top lo hi extents) :
    extents.Pairwise fun earlier later => top earlier ≤ base later := by
  induction extents generalizing lo with
  | nil => exact List.Pairwise.nil
  | cons extent rest inductionHypothesis =>
    obtain ⟨_, _, tail⟩ := packed
    exact List.Pairwise.cons (fun later member => (tail.within later member).1)
      (inductionHypothesis tail)

/-- An extent that fits in the room at a position of the list may be put there. -/
theorem Packed.insert {front back : List Extent} {extent : Extent}
    (packed : Packed base top lo hi (front ++ back))
    (low : roomBase top lo front ≤ base extent) (ordered : base extent ≤ top extent)
    (high : top extent ≤ roomTop base hi back) :
    Packed base top lo hi (front ++ extent :: back) := by
  obtain ⟨first, second⟩ := packed_append.mp packed
  exact packed_append.mpr ⟨first.retop low, low, ordered, second.rebase high⟩

theorem Packed.sublist {extents fewer : List Extent} (packed : Packed base top lo hi extents)
    (taken : fewer.Sublist extents) : Packed base top lo hi fewer := by
  induction taken generalizing lo with
  | slnil => exact packed
  | cons extent _ inductionHypothesis =>
    obtain ⟨low, ordered, tail⟩ := packed
    have rest := inductionHypothesis tail
    exact rest.rebase ((low.trans ordered).trans rest.le_roomTop)
  | cons_cons extent _ inductionHypothesis =>
    exact ⟨packed.1, packed.2.1, inductionHypothesis packed.2.2⟩

end Order

/-! ### Rooms -/

/-- A maximal free interval between extents: the extent it lies behind, if any, where it
begins, and its length. -/
structure Room (Extent : Type*) where
  behind : Option Extent
  base : Nat
  length : Nat
deriving DecidableEq

variable (base top : Extent → Nat)

/-- The rooms that a list of extents leaves between two bounds, in order. -/
def rooms (behind : Option Extent) (lo hi : Nat) : List Extent → List (Room Extent)
  | [] => [⟨behind, lo, hi - lo⟩]
  | extent :: rest => ⟨behind, lo, base extent - lo⟩ :: rooms (some extent) (top extent) hi rest

variable {base top} {lo hi : Nat} {behind : Option Extent}

theorem length_rooms (extents : List Extent) :
    (rooms base top behind lo hi extents).length = extents.length + 1 := by
  induction extents generalizing lo behind with
  | nil => rfl
  | cons extent rest inductionHypothesis =>
    rw [rooms, List.length_cons, inductionHypothesis, List.length_cons]

theorem getLast?_cons_or (extent : Extent) (front : List Extent) :
    (extent :: front).getLast?.or behind = front.getLast?.or (some extent) := by
  cases front with
  | nil => rfl
  | cons first others => rw [List.getLast?_cons_cons, List.getLast?_cons]; rfl

/-- The rooms are the positions of the list: one for each way to split it in two. -/
theorem mem_rooms {extents : List Extent} {room : Room Extent} :
    room ∈ rooms base top behind lo hi extents ↔
      ∃ front back, extents = front ++ back ∧
        room = ⟨front.getLast?.or behind, roomBase top lo front,
          roomTop base hi back - roomBase top lo front⟩ := by
  induction extents generalizing lo behind with
  | nil =>
    rw [rooms, List.mem_singleton]
    constructor
    · intro same
      exact ⟨[], [], rfl, same⟩
    · rintro ⟨front, back, split, same⟩
      obtain ⟨rfl, rfl⟩ := List.append_eq_nil_iff.mp split.symm
      exact same
  | cons extent rest inductionHypothesis =>
    rw [rooms, List.mem_cons, inductionHypothesis]
    constructor
    · rintro (same | ⟨front, back, rfl, same⟩)
      · exact ⟨[], extent :: rest, rfl, same⟩
      · exact ⟨extent :: front, back, rfl, by rw [same, getLast?_cons_or]; rfl⟩
    · rintro ⟨front, back, split, same⟩
      cases front with
      | nil =>
        obtain rfl : back = extent :: rest := split.symm
        exact Or.inl same
      | cons first front =>
        obtain ⟨rfl, rfl⟩ := List.cons.inj split
        exact Or.inr ⟨front, back, rfl, by rw [same, getLast?_cons_or]; rfl⟩

/-- When no extent is empty, the rooms lie in strictly increasing order of their bases. -/
theorem Packed.rooms_increasing {extents : List Extent} (packed : Packed base top lo hi extents)
    (proper : ∀ extent ∈ extents, base extent < top extent) :
    (rooms base top behind lo hi extents).Pairwise fun room later => room.base < later.base := by
  induction extents generalizing lo behind with
  | nil => exact List.pairwise_singleton _ _
  | cons extent rest inductionHypothesis =>
    obtain ⟨low, _, tail⟩ := packed
    refine List.Pairwise.cons ?_
      (inductionHypothesis tail fun other member => proper other (List.mem_cons_of_mem _ member))
    intro later member
    obtain ⟨front, back, rfl, rfl⟩ := mem_rooms.mp member
    have nonempty := proper extent List.mem_cons_self
    have above := (packed_append.mp tail).1.le_roomBase
    exact lt_of_lt_of_le (lt_of_le_of_lt low nonempty) above

/-- Taking an extent out joins the rooms on either side of it and leaves the other rooms. -/
theorem rooms_remove (front back : List Extent) (extent : Extent) :
    ∃ before after,
      rooms base top behind lo hi (front ++ extent :: back) =
          before ++ ⟨front.getLast?.or behind, roomBase top lo front,
              base extent - roomBase top lo front⟩ ::
            ⟨some extent, top extent, roomTop base hi back - top extent⟩ :: after ∧
        rooms base top behind lo hi (front ++ back) =
          before ++ ⟨front.getLast?.or behind, roomBase top lo front,
            roomTop base hi back - roomBase top lo front⟩ :: after := by
  induction front generalizing lo behind with
  | nil =>
    cases back with
    | nil => exact ⟨[], [], rfl, rfl⟩
    | cons next back => exact ⟨[], rooms base top (some next) (top next) hi back, rfl, rfl⟩
  | cons first front inductionHypothesis =>
    obtain ⟨before, after, whole, joined⟩ :=
      @inductionHypothesis (top first) (some first)
    refine ⟨⟨behind, lo, base first - lo⟩ :: before, after, ?_, ?_⟩
    · rw [List.cons_append, rooms, whole, getLast?_cons_or]
      rfl
    · rw [List.cons_append, rooms, joined, getLast?_cons_or]
      rfl

theorem rooms_eq_cons (extents : List Extent) :
    ∃ rest, rooms base top behind lo hi extents =
      ⟨behind, lo, roomTop base hi extents - lo⟩ :: rest := by
  cases extents with
  | nil => exact ⟨[], rfl⟩
  | cons extent rest => exact ⟨rooms base top (some extent) (top extent) hi rest, rfl⟩

/-- Extents that follow each other without a gap leave no room that is longer than anything. -/
theorem Contiguous.filter_rooms {front back : List Extent}
    (contiguous : Contiguous base top lo front) (bytes : Nat) :
    (rooms base top behind lo hi (front ++ back)).filter (fun room => bytes < room.length) =
      (rooms base top (front.getLast?.or behind) (roomBase top lo front) hi back).filter
        fun room => bytes < room.length := by
  induction front generalizing lo behind with
  | nil => rfl
  | cons extent front inductionHypothesis =>
    obtain ⟨low, tail⟩ := contiguous
    rw [List.cons_append, rooms, List.filter_cons_of_neg (by simp [low]),
      inductionHypothesis tail, getLast?_cons_or]
    rfl

/-- The room between the images of the extents, which lie some distance higher. -/
def Room.raise {Other : Type*} (image : Extent → Other) (distance : Nat) (room : Room Extent) :
    Room Other where
  behind := room.behind.map image
  base := room.base + distance
  length := room.length

/-- Extents that are all moved by the same distance leave the same rooms. -/
theorem rooms_map {Other : Type*} {otherBase otherTop : Other → Nat} {image : Extent → Other}
    {distance : Nat} (bases : ∀ extent, otherBase (image extent) = base extent + distance)
    (tops : ∀ extent, otherTop (image extent) = top extent + distance) (extents : List Extent) :
    rooms otherBase otherTop (behind.map image) (lo + distance) (hi + distance)
        (extents.map image) =
      (rooms base top behind lo hi extents).map (Room.raise image distance) := by
  induction extents generalizing lo behind with
  | nil =>
    simp only [List.map_nil, List.map_cons, rooms, Room.raise, Nat.add_sub_add_right]
  | cons extent rest inductionHypothesis =>
    have further := @inductionHypothesis (top extent) (some extent)
    rw [← tops] at further
    rw [List.map_cons, rooms, rooms, List.map_cons, ← further, bases]
    simp only [Room.raise, Nat.add_sub_add_right, Option.map_some]

/-- The rooms and the extents together fill the interval. -/
theorem Packed.sum_rooms {extents : List Extent} (packed : Packed base top lo hi extents) :
    ((rooms base top behind lo hi extents).map Room.length).sum +
      (extents.map fun extent => top extent - base extent).sum + lo = hi := by
  induction extents generalizing lo behind with
  | nil =>
    have ordered : lo ≤ hi := packed
    simp only [rooms, List.map_cons, List.map_nil, List.sum_cons, List.sum_nil]
    omega
  | cons extent rest inductionHypothesis =>
    obtain ⟨low, ordered, tail⟩ := packed
    have filled : ((rooms base top (some extent) (top extent) hi rest).map Room.length).sum +
        (rest.map fun extent => top extent - base extent).sum + top extent = hi :=
      inductionHypothesis tail
    simp only [rooms, List.map_cons, List.sum_cons]
    omega

end Extents
