/-
This file proves what `sys_tso_mm_alloc` does to a mapping. Wherever the search settles
on a gap of the layout, the call writes one header at the low end of that gap and links
it behind the region before the gap; it writes nothing else. When the gap admits the
region, the headers in memory describe the layout with the region placed, and the free
counter stays exact.
-/

import TsoAlloc.Fit

namespace TsoAlloc

open Extents

/-- A mapping record and the memory it points into describe a layout. -/
structure Describes {platform : Platform} (mm : TsoMmMapping) (memory : ByteMemory)
    (layout : Layout platform) : Prop where
  start : mm.start = layout.start
  size : mm.size = platform.initialSize
  listed : Listed platform memory mm.firstRegion layout.regions

/-- A mapping record and the memory it points into represent a heap: they describe its layout,
and the counter is what the heap leaves free. -/
structure Represents {platform : Platform} (mm : TsoMmMapping) (memory : ByteMemory)
    (heap : Heap platform) : Prop extends Describes mm memory heap.toLayout where
  free : mm.free = heap.freeBytes

section

variable (platform : Platform)

/-- The memory after a region was written at the low end of a gap and linked. -/
def placedMemory (memory : ByteMemory) (firstRegion size : Nat) (room : Room Region) :
    ByteMemory :=
  match room.behind with
  | none => writeHeader platform memory ⟨room.base, size⟩ firstRegion
  | some behind =>
    let next := nextOf platform
      (memory.store platform.wordBytes (sizeField platform room.base) size) behind.addr
    (writeHeader platform memory ⟨room.base, size⟩ next).store platform.wordBytes behind.addr
      room.base

/-- The mapping record after a region was linked at the low end of a gap. -/
def placedMapping (mm : TsoMmMapping) (size : Nat) (room : Room Region) : TsoMmMapping where
  firstRegion := if room.behind = none then room.base else mm.firstRegion
  start := mm.start
  size := mm.size
  free := platform.sub mm.free (platform.add size platform.headerSize)

/-- The words that are stored when a region is placed in a gap. -/
def placedStores (room : Room Region) : List Nat :=
  [sizeField platform room.base, room.base] ++ (room.behind.map Region.addr).toList

/-- What a call leaves behind that placed a region in a gap. -/
def placedOutcome (environment : Environment) (kernel : Kernel) (mm : TsoMmMapping) (size : Nat)
    (room : Room Region) : Outcome where
  kernel := { kernel with
    currentMm := some (placedMapping platform mm size room)
    memory := placedMemory platform kernel.memory mm.firstRegion size room }
  ret := 0
  delivered := if environment.copyToUser = 0 then some (platform.add room.base platform.headerSize)
    else none
  stores := placedStores platform room

/-- What a call leaves behind that refused a request. -/
def refusedOutcome (kernel : Kernel) (mm : TsoMmMapping) : Outcome where
  kernel := { kernel with currentMm := some mm }
  ret := -1
  delivered := none
  stores := []

/-- What a call leaves behind that settled on the given gap, or on none. -/
def settledOutcome (environment : Environment) (kernel : Kernel) (mm : TsoMmMapping) (size : Nat) :
    Option (Room Region) → Outcome
  | none => refusedOutcome kernel mm
  | some room => placedOutcome platform environment kernel mm size room

end

variable {platform : Platform} {kernel : Kernel} {mm : TsoMmMapping} {layout : Layout platform}

/-! ### One region is written -/

theorem Layout.base_ne_zero (layout : Layout platform) {room : Room Region}
    (gap : room ∈ layout.gaps) : room.base ≠ 0 := by
  have := (layout.gap_within gap).1
  have := layout.start_pos
  omega

/-- The call writes the header and links it wherever the search has settled. -/
theorem placeRegion_eq (environment : Environment) (size : Nat) {room : Room Region}
    (gap : room ∈ layout.gaps) :
    placeRegion platform environment kernel mm size (pointerTo room.behind) (settle room).2
        room.base =
      .ok (placedOutcome platform environment kernel mm size room) := by
  have position := layout.base_ne_zero gap
  obtain ⟨behind, base, length⟩ := room
  cases behind with
  | none =>
    simp only [placeRegion, settle, pointerTo, writeSize, writeNext, position, if_true, if_false,
      bind, Except.bind, reduceCtorEq]
    rfl
  | some behind =>
    obtain ⟨member, atTop⟩ := layout.gap_behind gap rfl
    have valid := layout.addr_ne_zero member
    simp only [placeRegion, settle, pointerTo, writeSize, writeNext, readNext, position, valid,
      if_true, if_false, bind, Except.bind, reduceCtorEq]
    rfl

/-- The head of a list of regions is a word. -/
theorem Layout.first_lt (layout : Layout platform) {memory : ByteMemory} {first : Nat}
    (listed : Listed platform memory first layout.regions) : first < platform.modulus := by
  cases shape : layout.regions with
  | nil =>
    rw [shape] at listed
    rw [listed_nil.mp listed]
    exact Nat.pow_pos (by decide)
  | cons region rest =>
    have inside := layout.within (by rw [shape]; exact List.mem_cons_self)
    rw [shape] at listed
    have below := region.addr_lt_top platform
    have fits := layout.fits
    rw [(listed_cons.mp listed).1]
    unfold Layout.stop at inside
    omega

/-- The headers in memory describe the layout with the region. -/
theorem Describes.place (describes : Describes mm kernel.memory layout) {size : Nat}
    {room : Room Region} (admits : layout.Admits (platform.headerSize + size) room) :
    Describes (placedMapping platform mm size room)
      (placedMemory platform kernel.memory mm.firstRegion size room)
      (layout.place size room admits) := by
  refine ⟨describes.start, describes.size, ?_⟩
  have enough := admits.le
  obtain ⟨low, high⟩ := layout.gap_within admits.1
  have stop := layout.fits
  have start := layout.start_pos
  have header := platform.headerSize_pos
  have sizeWord : size < platform.modulus := by unfold Layout.stop at high; omega
  have baseWord : room.base < platform.modulus := by unfold Layout.stop at high; omega
  obtain ⟨front, back, split, shape⟩ := layout.mem_gaps.mp admits.1
  have placed : (layout.place size room admits).regions = front ++ ⟨room.base, size⟩ :: back :=
    layout.insertRegion_eq split (by rw [shape])
  have listed := describes.listed
  cases behind : room.behind with
  | none =>
    obtain rfl : front = [] := by
      rw [shape] at behind
      exact List.getLast?_eq_none_iff.mp behind
    have head := layout.first_lt describes.listed
    rw [List.nil_append] at split placed
    rw [split] at listed
    have pushed := (layout.place size room admits).listed_push placed listed sizeWord head
    simp only [placedMapping, placedMemory, behind, if_true]
    exact pushed
  | some region =>
    obtain ⟨before, rfl⟩ : ∃ before, front = before ++ [region] := by
      rw [shape] at behind
      exact List.getLast?_eq_some_iff.mp behind
    rw [List.append_assoc, List.singleton_append] at split placed
    rw [split] at listed
    have inserted := (layout.place size room admits).listed_insert placed listed sizeWord baseWord
    have headerFits : room.base + platform.headerSize ≤ platform.modulus :=
      (layout.place size room admits).header_fits ((layout.mem_place admits).mpr (Or.inl rfl))
    -- The size of the new region is written behind the region that is about to link to it.
    have untouched : nextOf platform (kernel.memory.store platform.wordBytes
        (sizeField platform room.base) size) region.addr =
          nextOf platform kernel.memory region.addr := by
      have atTop := (layout.gap_behind admits.1 behind).2
      have behindTop := region.payload_le_top platform
      unfold Region.payload Platform.headerSize at behindTop
      unfold nextOf
      rw [sizeField_eq headerFits, ByteMemory.load_store_of_disjoint (Or.inl (by omega))]
    simp only [placedMapping, placedMemory, behind, reduceCtorEq, if_false, untouched]
    exact inserted

/-- Placing a region changes no byte outside the words it stores. -/
theorem placedMemory_of_outside {memory : ByteMemory} {firstRegion size : Nat}
    {room : Room Region} {byte : Nat}
    (outside : ∀ word ∈ placedStores platform room,
      ¬ ByteMemory.InWord platform.wordBytes word byte) :
    placedMemory platform memory firstRegion size room byte = memory byte := by
  have sizeWord := outside (sizeField platform room.base) (by simp [placedStores])
  have nextWord := outside room.base (by simp [placedStores])
  unfold placedMemory
  cases behind : room.behind with
  | none =>
    dsimp only
    rw [writeHeader, ByteMemory.store_of_notInWord nextWord,
      ByteMemory.store_of_notInWord sizeWord]
  | some region =>
    have linkWord := outside region.addr (by simp [placedStores, behind])
    dsimp only
    rw [ByteMemory.store_of_notInWord linkWord, writeHeader,
      ByteMemory.store_of_notInWord nextWord, ByteMemory.store_of_notInWord sizeWord]

/-- Every word stored lies in the header of the new region or of a region of the layout. -/
theorem placedStores_within {room : Room Region} {size : Nat}
    (admits : layout.Admits (platform.headerSize + size) room) {word : Nat}
    (member : word ∈ placedStores platform room) :
    (room.base ≤ word ∧ word + platform.wordBytes ≤ room.base + platform.headerSize) ∨
      ∃ region ∈ layout.regions, word = region.addr := by
  have headerFits : room.base + platform.headerSize ≤ platform.modulus := by
    have enough := admits.le
    have high := (layout.gap_within admits.1).2
    have stop := layout.fits
    unfold Layout.stop at high
    omega
  unfold placedStores at member
  rw [sizeField_eq headerFits] at member
  unfold Platform.headerSize
  rcases List.mem_append.mp member with header | link
  · left
    rcases List.mem_cons.mp header with rfl | header
    · omega
    · rw [List.mem_singleton] at header
      omega
  · right
    cases behind : room.behind with
    | none =>
      rw [behind] at link
      cases link
    | some region =>
      rw [behind, Option.map_some, Option.toList_some, List.mem_singleton] at link
      exact ⟨region, (layout.gap_behind admits.1 behind).1, link⟩

/-! ### The call -/

/-- Wherever the search settles, the call refuses or places the region there. -/
theorem allocMapped_eq (describes : Describes mm kernel.memory layout) {fuel size : Nat}
    {observed : Nat → BitVec 32} (environment : Environment) {found : Option (Room Region)}
    (gap : ∀ room, found = some room →
      room ∈ layout.gaps ∧ (room.behind = none ∨ 0 < room.length))
    (searched : tsoMmGetFit platform fuel observed mm kernel.memory size .noFit =
      .ok (settleOn found)) :
    allocMapped platform fuel observed environment size kernel mm =
      .ok (settledOutcome platform environment kernel mm size
        (if mm.free < regionSize platform size then none else found)) := by
  unfold allocMapped
  by_cases short : mm.free < regionSize platform size
  · rw [if_pos short, if_pos short]
    rfl
  rw [if_neg short, if_neg short]
  simp only [searched, bind, Except.bind]
  cases found with
  | none => rfl
  | some room =>
    obtain ⟨member, proper⟩ := gap room rfl
    have written : placeRegion platform environment { kernel with currentMm := some mm } mm size
        (pointerTo room.behind) (settle room).2 room.base =
          .ok (placedOutcome platform environment kernel mm size room) :=
      placeRegion_eq environment size member
    cases behind : room.behind with
    | none =>
      have atStart := (layout.gap_behind_eq_none member).mp behind
      simp only [settleOn, settle, behind, pointerTo, if_true] at written ⊢
      rw [describes.start, ← atStart]
      exact written
    | some region =>
      obtain ⟨regionMember, atTop⟩ := layout.gap_behind member behind
      have valid := layout.addr_ne_zero regionMember
      have inside := (layout.within regionMember).2
      have fits := layout.fits
      have below := region.addr_lt_top platform
      have exactSize := regionSize_of_top_le (by omega) inside fits
      have size_eq : sizeOf platform kernel.memory region.addr = region.size :=
        describes.listed.sizes region regionMember
      have notLast : region.top platform < platform.modulus := by
        have high := (layout.gap_within member).2
        rw [behind] at proper
        have nonempty := proper.resolve_left (Option.some_ne_none region)
        unfold Layout.stop at high
        omega
      have position : platform.add region.addr (regionSize platform region.size) = room.base := by
        rw [exactSize, atTop]
        exact Platform.add_of_lt notLast
      unfold sizeOf at size_eq
      simp only [settleOn, settle, behind, pointerTo, valid, if_false, readSize, size_eq,
        position] at written ⊢
      exact written

/-- The gap the search settles on under one strategy: the whole of an empty mapping, whatever
its length, or what the strategy picks among the gaps above the request. -/
def Layout.target (layout : Layout platform) (strategy : AllocationStrategy) (bytes : Nat) :
    Option (Room Region) :=
  if layout.regions = [] then some ⟨none, layout.start, platform.initialSize⟩
  else Layout.pick strategy (layout.gapsAbove bytes)

theorem Layout.target_gap (layout : Layout platform) {strategy : AllocationStrategy} {bytes : Nat}
    {room : Room Region} (targeted : layout.target strategy bytes = some room) :
    room ∈ layout.gaps ∧ (room.behind = none ∨ 0 < room.length) := by
  unfold target at targeted
  split at targeted
  · rename_i empty
    obtain rfl := Option.some.inj targeted
    rw [layout.gaps_of_empty empty]
    exact ⟨List.mem_singleton_self _, Or.inl rfl⟩
  · obtain ⟨gap, longer⟩ := layout.mem_gapsAbove.mp (Layout.mem_of_pick targeted)
    exact ⟨gap, Or.inr (by omega)⟩

/-- With one strategy in force, the search settles on that strategy's gap. -/
theorem tsoMmGetFit_constant (describes : Describes mm kernel.memory layout) {fuel size : Nat}
    {observed : Nat → BitVec 32} {strategy : AllocationStrategy}
    (constant : ∀ read, AllocationStrategy.ofValue (observed read) = some strategy)
    (enough : layout.regions.length < fuel) :
    tsoMmGetFit platform fuel observed mm kernel.memory size .noFit =
      .ok (settleOn (layout.target strategy (regionSize platform size))) := by
  rw [tsoMmGetFit_eq layout .noFit describes.start describes.size describes.listed enough]
  unfold Layout.target
  split
  · rfl
  · rw [scanRooms_constant constant describes.size fun room member => by
      have := layout.length_le_of_mem_gaps member
      omega]
    rfl

namespace Represents

variable {heap : Heap platform}

theorem le_free_of_admits (represents : Represents mm kernel.memory heap) {bytes : Nat}
    {room : Room Region} (admits : heap.Admits bytes room) : bytes ≤ mm.free := by
  have := heap.length_le_of_mem_gaps admits.1
  have := admits.le
  rw [represents.free]
  unfold Heap.freeBytes
  omega

/-- With the counter exact, the test of the counter and the search together are the choice of
the strategy. -/
theorem target_eq_choose (represents : Represents mm kernel.memory heap)
    (strategy : AllocationStrategy) (bytes : Nat) :
    (if mm.free < bytes then none else heap.target strategy bytes) =
      heap.choose strategy bytes := by
  split
  · rename_i short
    refine (heap.choose_eq_none.mpr fun room admits => ?_).symm
    have := represents.le_free_of_admits admits
    omega
  · rename_i enough
    by_cases empty : heap.regions = []
    · have free : heap.freeBytes ≤ platform.initialSize := Nat.sub_le _ _
      rw [heap.choose_of_empty empty, Layout.target, if_pos empty, if_pos]
      have := represents.free
      omega
    · rw [Layout.target, if_neg empty, Layout.choose, if_neg empty]

/-- The memory and the record after a region was placed represent the heap with the region. -/
theorem place (represents : Represents mm kernel.memory heap) {size : Nat} {room : Room Region}
    (admits : heap.Admits (platform.headerSize + size) room) :
    Represents (placedMapping platform mm size room)
      (placedMemory platform kernel.memory mm.firstRegion size room)
      (heap.place size room admits) where
  toDescribes := represents.toDescribes.place admits
  free := by
    have enough := represents.le_free_of_admits admits
    have free := represents.free
    have small := platform.initialSize_lt_modulus
    have taken : (heap.place size room admits).used = heap.used + (platform.headerSize + size) :=
      heap.used_place admits
    unfold Heap.freeBytes at free ⊢
    show platform.sub mm.free (platform.add size platform.headerSize) = _
    rw [Platform.add_of_lt (by omega), Platform.sub_of_le (by omega) (by omega), taken]
    omega

end Represents

/-- `sys_tso_mm_alloc` on a heap, for a request that does not wrap: it places the region in the
gap that the strategy chooses, and refuses the request when there is none. -/
theorem allocMapped_represents {heap : Heap platform}
    (represents : Represents mm kernel.memory heap) {fuel size : Nat}
    {observed : Nat → BitVec 32} (environment : Environment) {strategy : AllocationStrategy}
    (constant : ∀ read, AllocationStrategy.ofValue (observed read) = some strategy)
    (enough : heap.regions.length < fuel)
    (fits : platform.headerSize + size < platform.modulus) :
    allocMapped platform fuel observed environment size kernel mm =
      .ok (settledOutcome platform environment kernel mm size
        (heap.choose strategy (platform.headerSize + size))) := by
  have exactSize : regionSize platform size = platform.headerSize + size :=
    Platform.add_of_lt fits
  rw [allocMapped_eq represents.toDescribes environment (fun room => heap.target_gap)
    (tsoMmGetFit_constant represents.toDescribes constant enough), exactSize,
    represents.target_eq_choose]

end TsoAlloc
