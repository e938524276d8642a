/-
This file states what the allocator is for, without pointers, counters or bytes. A
layout is a list of regions in address order, without overlap, inside one mapping;
its gaps are the rooms the regions leave. A heap is a layout whose payload addresses
are proper words. A request is admitted to a gap that is strictly longer than the
region, or to the whole of an empty mapping that is long enough; the strategy picks
among the gaps that admit it. Placing puts the region at the low end of the gap, and
releasing takes out the region with the given payload address.
-/

import Mathlib.Algebra.Order.BigOperators.Group.List
import Mathlib.Data.List.MinMax
import Mathlib.Data.List.Nodup
import TsoAlloc.Kernel
import TsoAlloc.Library.Extents

namespace TsoAlloc

open Extents

/-- A region: the address of its header and the bytes of its payload. -/
structure Region where
  addr : Nat
  size : Nat
deriving DecidableEq, Repr

namespace Region

variable (platform : Platform)

/-- The address handed to the caller. -/
def payload (region : Region) : Nat := region.addr + platform.headerSize

/-- The end of a region, behind its payload. -/
def top (region : Region) : Nat := region.addr + (platform.headerSize + region.size)

theorem addr_lt_top (region : Region) : region.addr < region.top platform := by
  have := platform.headerSize_pos
  unfold top
  omega

theorem payload_le_top (region : Region) : region.payload platform ≤ region.top platform := by
  unfold payload top
  omega

end Region

/-! ### Layouts -/

/-- Regions in address order, without overlap, inside a mapping that ends within the
address space. -/
@[ext]
structure Layout (platform : Platform) where
  start : Nat
  regions : List Region
  start_pos : 0 < start
  fits : start + platform.initialSize ≤ platform.modulus
  packed : Packed Region.addr (Region.top platform) start (start + platform.initialSize) regions

namespace Layout

variable {platform : Platform} (layout : Layout platform)

/-- The end of the mapping. -/
def stop : Nat := layout.start + platform.initialSize

/-- The bytes the regions take, headers included. -/
def used : Nat := (layout.regions.map fun region => platform.headerSize + region.size).sum

/-- The gaps: before the first region, between neighbours, and behind the last region. -/
def gaps : List (Room Region) :=
  rooms Region.addr (Region.top platform) none layout.start layout.stop layout.regions

/-- The gaps that are strictly longer than a number of bytes. -/
def gapsAbove (bytes : Nat) : List (Room Region) :=
  layout.gaps.filter fun room => bytes < room.length

theorem mem_gaps {room : Room Region} :
    room ∈ layout.gaps ↔
      ∃ front back, layout.regions = front ++ back ∧
        room = ⟨front.getLast?, roomBase (Region.top platform) layout.start front,
          roomTop Region.addr layout.stop back -
            roomBase (Region.top platform) layout.start front⟩ := by
  unfold gaps
  simp only [mem_rooms, Option.or_none]

theorem mem_gapsAbove {bytes : Nat} {room : Room Region} :
    room ∈ layout.gapsAbove bytes ↔ room ∈ layout.gaps ∧ bytes < room.length := by
  unfold gapsAbove
  rw [List.mem_filter, decide_eq_true_eq]

theorem gapsAbove_ne_nil {bytes : Nat} :
    layout.gapsAbove bytes ≠ [] ↔ ∃ room ∈ layout.gaps, bytes < room.length := by
  constructor
  · intro gapped
    obtain ⟨room, member⟩ := List.exists_mem_of_ne_nil _ gapped
    exact ⟨room, layout.mem_gapsAbove.mp member⟩
  · rintro ⟨room, both⟩
    exact List.ne_nil_of_mem (layout.mem_gapsAbove.mpr both)

/-- The gaps and the regions fill the mapping. -/
theorem sum_gaps_add_used :
    (layout.gaps.map Room.length).sum + layout.used = platform.initialSize := by
  have filled : (layout.gaps.map Room.length).sum +
      (layout.regions.map fun region => region.top platform - region.addr).sum + layout.start =
        layout.stop := layout.packed.sum_rooms
  have sizes : (layout.regions.map fun region => region.top platform - region.addr) =
      layout.regions.map fun region => platform.headerSize + region.size :=
    List.map_congr_left fun region _ => Nat.add_sub_cancel_left _ _
  rw [sizes] at filled
  unfold used
  unfold stop at filled
  omega

theorem used_le : layout.used ≤ platform.initialSize := by
  have := layout.sum_gaps_add_used
  omega

theorem length_le_of_mem_gaps {room : Room Region} (member : room ∈ layout.gaps) :
    room.length + layout.used ≤ platform.initialSize := by
  have single : room.length ≤ (layout.gaps.map Room.length).sum :=
    List.single_le_sum (fun _ _ => Nat.zero_le _) _ (List.mem_map_of_mem member)
  have := layout.sum_gaps_add_used
  omega

theorem within {region : Region} (member : region ∈ layout.regions) :
    layout.start ≤ region.addr ∧ region.top platform ≤ layout.stop :=
  ⟨(layout.packed.within region member).1, (layout.packed.within region member).2.2⟩

theorem addr_lt : layout.regions.Pairwise fun earlier later => earlier.addr < later.addr :=
  layout.packed.pairwise.imp fun below => lt_of_lt_of_le (Region.addr_lt_top platform _) below

theorem apart {first second : Region} (firstMember : first ∈ layout.regions)
    (secondMember : second ∈ layout.regions) (different : first ≠ second) :
    first.top platform ≤ second.addr ∨ second.top platform ≤ first.addr := by
  have : Std.Symm fun earlier later : Region =>
      earlier.top platform ≤ later.addr ∨ later.top platform ≤ earlier.addr :=
    ⟨fun _ _ below => below.symm⟩
  have ordered : layout.regions.Pairwise fun earlier later =>
      earlier.top platform ≤ later.addr ∨ later.top platform ≤ earlier.addr :=
    layout.packed.pairwise.imp Or.inl
  exact ordered.forall firstMember secondMember different

/-- A byte of a payload lies in no header. -/
theorem payload_outside {region other : Region} (member : region ∈ layout.regions)
    (otherMember : other ∈ layout.regions) {byte : Nat} (low : region.payload platform ≤ byte)
    (high : byte < region.top platform) :
    byte < other.addr ∨ other.payload platform ≤ byte := by
  by_cases same : region = other
  · exact Or.inr (same ▸ low)
  · have below := other.payload_le_top platform
    unfold Region.payload at low
    rcases layout.apart member otherMember same with before | behind
    · exact Or.inl (by omega)
    · exact Or.inr (by omega)

theorem nodup_addr : (layout.regions.map Region.addr).Nodup :=
  List.pairwise_map.mpr (layout.addr_lt.imp Nat.ne_of_lt)

/-- The room at a position of the list lies inside the mapping. -/
theorem room_within {front back : List Region} (split : layout.regions = front ++ back) :
    layout.start ≤ roomBase (Region.top platform) layout.start front ∧
      roomBase (Region.top platform) layout.start front ≤ roomTop Region.addr layout.stop back ∧
        roomTop Region.addr layout.stop back ≤ layout.stop := by
  have packed := layout.packed
  rw [split] at packed
  obtain ⟨first, second⟩ := packed_append.mp packed
  exact ⟨first.le_roomBase, second.le_roomTop, second.roomTop_le⟩

/-- A gap lies inside the mapping. -/
theorem gap_within {room : Room Region} (member : room ∈ layout.gaps) :
    layout.start ≤ room.base ∧ room.base + room.length ≤ layout.stop := by
  obtain ⟨front, back, split, rfl⟩ := layout.mem_gaps.mp member
  obtain ⟨low, ordered, high⟩ := layout.room_within split
  dsimp only
  omega

theorem gap_behind {room : Room Region} {region : Region} (member : room ∈ layout.gaps)
    (behind : room.behind = some region) :
    region ∈ layout.regions ∧ room.base = region.top platform := by
  obtain ⟨front, back, split, rfl⟩ := layout.mem_gaps.mp member
  obtain ⟨before, rfl⟩ := List.getLast?_eq_some_iff.mp behind
  refine ⟨?_, roomBase_append_singleton _ _ _ _⟩
  rw [split]
  exact List.mem_append_left _ (List.mem_append_right _ List.mem_cons_self)

/-- The gap with no region before it is the one at the start of the mapping. -/
theorem gap_behind_eq_none {room : Room Region} (member : room ∈ layout.gaps) :
    room.behind = none ↔ room.base = layout.start := by
  constructor
  · intro behind
    obtain ⟨front, back, split, rfl⟩ := layout.mem_gaps.mp member
    obtain rfl : front = [] := List.getLast?_eq_none_iff.mp behind
    rfl
  · intro atStart
    cases behind : room.behind with
    | none => rfl
    | some region =>
      obtain ⟨regionMember, base⟩ := layout.gap_behind member behind
      have low := (layout.within regionMember).1
      have := region.addr_lt_top platform
      omega

/-! ### Placing a region -/

/-- A gap admits a number of bytes when it is strictly longer, or when it is the whole of an
empty mapping and at least as long. -/
def Admits (bytes : Nat) (room : Room Region) : Prop :=
  room ∈ layout.gaps ∧
    (bytes < room.length ∨ layout.regions = [] ∧ bytes ≤ room.length)

instance (bytes : Nat) (room : Room Region) : Decidable (layout.Admits bytes room) :=
  inferInstanceAs (Decidable (_ ∧ _))

theorem Admits.le {layout : Layout platform} {bytes : Nat} {room : Room Region}
    (admits : layout.Admits bytes room) : bytes ≤ room.length := by
  rcases admits.2 with longer | ⟨_, enough⟩
  · exact longer.le
  · exact enough

end Layout

/-- The list with a region put in at its place in address order. -/
def insertRegion (regions : List Region) (region : Region) : List Region :=
  regions.takeWhile (fun other => other.addr < region.addr) ++
    region :: regions.dropWhile fun other => other.addr < region.addr

theorem insertRegion_perm (regions : List Region) (region : Region) :
    (insertRegion regions region).Perm (region :: regions) := by
  refine List.perm_middle.trans (List.Perm.cons _ ?_)
  rw [List.takeWhile_append_dropWhile]

theorem mem_insertRegion {regions : List Region} {region other : Region} :
    other ∈ insertRegion regions region ↔ other = region ∨ other ∈ regions := by
  rw [(insertRegion_perm regions region).mem_iff, List.mem_cons]

namespace Layout

variable {platform : Platform} (layout : Layout platform)

/-- A region put at the low end of a room goes between the two halves of the list. -/
theorem insertRegion_eq {front back : List Region} (split : layout.regions = front ++ back)
    {region : Region} (base : region.addr = roomBase (Region.top platform) layout.start front) :
    insertRegion layout.regions region = front ++ region :: back := by
  have packed := layout.packed
  rw [split] at packed
  obtain ⟨first, second⟩ := packed_append.mp packed
  have before : ∀ other ∈ front, decide (other.addr < region.addr) = true := by
    intro other member
    have bound := ((first.retop le_rfl).within other member).2.2
    have := other.addr_lt_top platform
    rw [decide_eq_true_eq]
    omega
  have behind : ∀ other ∈ back, ¬ decide (other.addr < region.addr) = true := by
    intro other member
    have bound := (second.within other member).1
    rw [decide_eq_true_eq]
    omega
  have takeBack : back.takeWhile (fun other => other.addr < region.addr) = [] := by
    cases back with
    | nil => rfl
    | cons other rest => exact List.takeWhile_cons_of_neg (behind other List.mem_cons_self)
  have dropBack : back.dropWhile (fun other => other.addr < region.addr) = back := by
    cases back with
    | nil => rfl
    | cons other rest => exact List.dropWhile_cons_of_neg (behind other List.mem_cons_self)
  rw [insertRegion, split, List.takeWhile_append_of_pos before,
    List.dropWhile_append_of_pos before, takeBack, dropBack, List.append_nil]

/-- The layout with a region at the low end of a gap that admits it. -/
def place (size : Nat) (room : Room Region)
    (admits : layout.Admits (platform.headerSize + size) room) : Layout platform where
  start := layout.start
  regions := insertRegion layout.regions ⟨room.base, size⟩
  start_pos := layout.start_pos
  fits := layout.fits
  packed := by
    have enough := admits.le
    obtain ⟨front, back, split, rfl⟩ := layout.mem_gaps.mp admits.1
    obtain ⟨_, ordered, _⟩ := layout.room_within split
    rw [layout.insertRegion_eq split rfl]
    have packed := layout.packed
    rw [split] at packed
    refine packed.insert le_rfl (Region.addr_lt_top platform _).le ?_
    dsimp only [Region.top] at enough ⊢
    unfold stop at enough ordered
    omega

theorem mem_place {size : Nat} {room : Room Region}
    (admits : layout.Admits (platform.headerSize + size) room) {region : Region} :
    region ∈ (layout.place size room admits).regions ↔
      region = ⟨room.base, size⟩ ∨ region ∈ layout.regions := mem_insertRegion

theorem used_place {size : Nat} {room : Room Region}
    (admits : layout.Admits (platform.headerSize + size) room) :
    (layout.place size room admits).used = layout.used + (platform.headerSize + size) := by
  have placed := (insertRegion_perm layout.regions ⟨room.base, size⟩).map fun region =>
    platform.headerSize + region.size
  exact placed.sum_eq.trans (Nat.add_comm _ _)

/-! ### Choosing a gap -/

/-- The gap that a strategy picks among gaps that all do: the first, the shortest or the longest,
the lowest one among equals. -/
def pick (strategy : AllocationStrategy) (gaps : List (Room Region)) : Option (Room Region) :=
  match strategy with
  | .firstFit => gaps.head?
  | .bestFit => gaps.argmin Room.length
  | .worstFit => gaps.argmax Room.length

theorem mem_of_pick {strategy : AllocationStrategy} {gaps : List (Room Region)}
    {room : Room Region} (picked : pick strategy gaps = some room) : room ∈ gaps := by
  cases strategy with
  | firstFit => exact List.mem_of_mem_head? picked
  | bestFit => exact List.argmin_mem picked
  | worstFit => exact List.argmax_mem picked

theorem pick_eq_none {strategy : AllocationStrategy} {gaps : List (Room Region)} :
    pick strategy gaps = none ↔ gaps = [] := by
  cases strategy with
  | firstFit => exact List.head?_eq_none_iff
  | bestFit => exact List.argmin_eq_none
  | worstFit => exact List.argmax_eq_none

/-- The gap that a request of some bytes gets: in an empty mapping the whole mapping, if it is
long enough, and otherwise what the strategy picks among the gaps that are strictly longer. -/
def choose (strategy : AllocationStrategy) (bytes : Nat) : Option (Room Region) :=
  if layout.regions = [] then layout.gaps.find? fun room => bytes ≤ room.length
  else pick strategy (layout.gapsAbove bytes)

theorem gaps_of_empty (empty : layout.regions = []) :
    layout.gaps = [⟨none, layout.start, platform.initialSize⟩] := by
  rw [gaps, empty, rooms, stop, Nat.add_sub_cancel_left]

/-- Without regions the bytes fit exactly when they fit in the whole mapping. -/
theorem choose_of_empty (empty : layout.regions = []) (strategy : AllocationStrategy)
    (bytes : Nat) :
    layout.choose strategy bytes =
      if bytes ≤ platform.initialSize then some ⟨none, layout.start, platform.initialSize⟩
      else none := by
  rw [choose, if_pos empty, layout.gaps_of_empty empty, List.find?_singleton]
  simp only [decide_eq_true_eq]

/-- A strategy picks a gap that admits the bytes. -/
theorem admits_of_choose {strategy : AllocationStrategy} {bytes : Nat} {room : Room Region}
    (chosen : layout.choose strategy bytes = some room) : layout.Admits bytes room := by
  unfold choose at chosen
  split at chosen
  · rename_i empty
    have enough := List.find?_some chosen
    rw [decide_eq_true_eq] at enough
    exact ⟨List.mem_of_find?_eq_some chosen, Or.inr ⟨empty, enough⟩⟩
  · obtain ⟨gap, longer⟩ := layout.mem_gapsAbove.mp (mem_of_pick chosen)
    exact ⟨gap, Or.inl longer⟩

/-- A strategy picks nothing exactly when no gap admits the bytes: whether a request is met
does not depend on the strategy. -/
theorem choose_eq_none {strategy : AllocationStrategy} {bytes : Nat} :
    layout.choose strategy bytes = none ↔ ∀ room, ¬ layout.Admits bytes room := by
  constructor
  · intro nothing room admits
    by_cases empty : layout.regions = []
    · rw [layout.choose_of_empty empty] at nothing
      have gap := admits.1
      rw [layout.gaps_of_empty empty, List.mem_singleton] at gap
      have enough : bytes ≤ platform.initialSize := by
        have := admits.le
        rwa [gap] at this
      rw [if_pos enough] at nothing
      cases nothing
    · have longer : bytes < room.length := by
        rcases admits.2 with longer | ⟨contradiction, _⟩
        · exact longer
        · exact absurd contradiction empty
      have member := layout.mem_gapsAbove.mpr ⟨admits.1, longer⟩
      rw [choose, if_neg empty, pick_eq_none] at nothing
      rw [nothing] at member
      cases member
  · intro nowhere
    cases chosen : layout.choose strategy bytes with
    | none => rfl
    | some room => exact absurd (layout.admits_of_choose chosen) (nowhere room)

end Layout

/-! ### Heaps -/

/-- A layout in which every payload begins inside the mapping, so that no payload address
wraps to `NULL`. -/
@[ext]
structure Heap (platform : Platform) extends Layout platform where
  payload_lt : ∀ region ∈ regions, region.payload platform < start + platform.initialSize

namespace Heap

variable {platform : Platform} (heap : Heap platform)

/-- The bytes that no region takes. -/
def freeBytes : Nat := platform.initialSize - heap.used

/-- A mapping without regions. -/
def empty (start : Nat) (start_pos : 0 < start)
    (fits : start + platform.initialSize ≤ platform.modulus) : Heap platform where
  start := start
  regions := []
  start_pos := start_pos
  fits := fits
  packed := Nat.le_add_right _ _
  payload_lt := by intro region member; cases member

theorem payload_injective {first second : Region} (firstMember : first ∈ heap.regions)
    (secondMember : second ∈ heap.regions)
    (same : first.payload platform = second.payload platform) : first = second := by
  exact List.inj_on_of_nodup_map heap.toLayout.nodup_addr firstMember secondMember
    (Nat.add_right_cancel same)

/-- The heap with a region at the low end of a gap that admits it. -/
def place (size : Nat) (room : Room Region)
    (admits : heap.Admits (platform.headerSize + size) room) : Heap platform where
  toLayout := heap.toLayout.place size room admits
  payload_lt := by
    intro region member
    rcases heap.mem_place admits |>.mp member with rfl | member
    · have inside := (heap.gap_within admits.1).2
      have := platform.two_headers_lt_initialSize
      have := platform.headerSize_pos
      show room.base + platform.headerSize < heap.start + platform.initialSize
      unfold Layout.stop at inside
      rcases admits.2 with longer | ⟨empty, _⟩
      · omega
      · have gap := admits.1
        rw [heap.gaps_of_empty empty, List.mem_singleton] at gap
        rw [gap]
        dsimp only
        omega
    · exact heap.payload_lt region member

/-- The heap without the region that has a payload address, if there is one. -/
def release (addr : Nat) : Heap platform where
  start := heap.start
  regions := heap.regions.filter fun region => region.payload platform ≠ addr
  start_pos := heap.start_pos
  fits := heap.fits
  packed := heap.packed.sublist List.filter_sublist
  payload_lt := fun region member => heap.payload_lt region (List.mem_of_mem_filter member)

/-- Releasing an address takes out the region with that payload address. -/
theorem release_regions {front back : List Region} {region : Region}
    (split : heap.regions = front ++ region :: back) :
    (heap.release (region.payload platform)).regions = front ++ back := by
  have distinct := heap.toLayout.nodup_addr
  rw [split, List.map_append, List.map_cons, List.nodup_middle, List.nodup_cons,
    ← List.map_append] at distinct
  have others : ∀ other ∈ front ++ back,
      decide (other.payload platform ≠ region.payload platform) = true := by
    intro other member
    rw [decide_eq_true_eq]
    intro same
    refine distinct.1 (List.mem_map.mpr ⟨other, member, ?_⟩)
    exact Nat.add_right_cancel same
  show heap.regions.filter _ = _
  rw [split, List.filter_append, List.filter_cons_of_neg (by simp), ← List.filter_append,
    List.filter_eq_self.mpr others]

/-- Releasing a region takes out that region alone. -/
theorem release_perm {region : Region} (member : region ∈ heap.regions) :
    heap.regions.Perm (region :: (heap.release (region.payload platform)).regions) := by
  obtain ⟨front, back, split⟩ := List.append_of_mem member
  rw [heap.release_regions split, split]
  exact List.perm_middle

theorem release_of_notMem {addr : Nat}
    (unknown : ∀ region ∈ heap.regions, region.payload platform ≠ addr) :
    heap.release addr = heap :=
  Heap.ext rfl (List.filter_eq_self.mpr fun region member =>
    decide_eq_true (unknown region member))

theorem used_release {front back : List Region} {region : Region}
    (split : heap.regions = front ++ region :: back) :
    (heap.release (region.payload platform)).used + (platform.headerSize + region.size) =
      heap.used := by
  have member : region ∈ heap.regions := split ▸ List.mem_append_cons_self
  have released := (heap.release_perm member).map fun other => platform.headerSize + other.size
  exact (Nat.add_comm _ _).trans released.sum_eq.symm

end Heap

end TsoAlloc
