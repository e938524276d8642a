/-
This file connects the system calls to the abstract heap. A heap answers a call by
placing a region, releasing one, or doing nothing; the kernel, on a record and a memory
that represent the heap, returns the same answer and leaves a record and a memory that
represent the resulting heap. It stores only into headers of regions that are in the
heap before or after, and it changes no other byte.
-/

import TsoAlloc.Free

namespace TsoAlloc

open Extents

/-- What the caller of a system call sees: the return value, and the delivered pointer. -/
structure Answer where
  ret : Int
  delivered : Option Nat
deriving DecidableEq, Repr

/-- What the caller sees of an outcome. -/
def Outcome.answer (outcome : Outcome) : Answer := ⟨outcome.ret, outcome.delivered⟩

namespace Heap

variable {platform : Platform}

/-- The address is the payload address of a region of the heap. -/
def Has (heap : Heap platform) (addr : Nat) : Prop :=
  ∃ region ∈ heap.regions, region.payload platform = addr

instance (heap : Heap platform) (addr : Nat) : Decidable (heap.Has addr) :=
  inferInstanceAs (Decidable (∃ region ∈ heap.regions, region.payload platform = addr))

/-- A request for some bytes of payload. -/
def alloc (heap : Heap platform) (strategy : AllocationStrategy) (environment : Environment)
    (size : Nat) : Heap platform × Answer :=
  match chosen : heap.choose strategy (platform.headerSize + size) with
  | none => (heap, ⟨-1, none⟩)
  | some room =>
    (heap.place size room (heap.admits_of_choose chosen),
      ⟨0, if environment.copyToUser = 0 then some (room.base + platform.headerSize) else none⟩)

/-- The release of an address. An address that no region has is reported, unless there is
exactly one region. -/
def free (heap : Heap platform) (addr : Nat) : Heap platform × Answer :=
  (heap.release addr,
    ⟨if heap.Has addr ∨ heap.regions.length = 1 then 0 else -1, none⟩)

theorem alloc_of_none {heap : Heap platform} {strategy : AllocationStrategy}
    {environment : Environment} {size : Nat}
    (chosen : heap.choose strategy (platform.headerSize + size) = none) :
    heap.alloc strategy environment size = (heap, ⟨-1, none⟩) := by
  unfold alloc
  split
  · rfl
  · rename_i other
    rw [chosen] at other
    cases other

theorem alloc_of_some {heap : Heap platform} {strategy : AllocationStrategy}
    {environment : Environment} {size : Nat} {room : Room Region}
    (chosen : heap.choose strategy (platform.headerSize + size) = some room) :
    heap.alloc strategy environment size =
      (heap.place size room (heap.admits_of_choose chosen),
        ⟨0, if environment.copyToUser = 0 then some (room.base + platform.headerSize)
          else none⟩) := by
  unfold alloc
  split
  · rename_i other
    rw [chosen] at other
    cases other
  · rename_i other same
    rw [chosen] at same
    obtain rfl := Option.some.inj same
    rfl

end Heap

/-- An outcome realizes a result of the abstract heap: the caller sees the same answer, the
record and the memory represent the new heap, the strategy is as it was, the stores go to
headers of regions of the old or the new heap, and no other byte changes. -/
structure Outcome.Realizes {platform : Platform} (outcome : Outcome) (kernel : Kernel)
    (heap : Heap platform) (result : Heap platform × Answer) : Prop where
  answer : outcome.answer = result.2
  represents : ∃ mm, outcome.kernel.currentMm = some mm ∧
    Represents mm outcome.kernel.memory result.1
  strategy : outcome.kernel.currentStrategy = kernel.currentStrategy
  stores : ∀ word ∈ outcome.stores, ∃ region ∈ heap.regions ++ result.1.regions,
    region.addr ≤ word ∧ word + platform.wordBytes ≤ region.payload platform
  frame : ∀ byte, (∀ word ∈ outcome.stores, ¬ ByteMemory.InWord platform.wordBytes word byte) →
    outcome.kernel.memory byte = kernel.memory byte

/-- Two memories differ at most in the headers of some regions. -/
def HeadersOnly (platform : Platform) (regions : List Region) (memory changed : ByteMemory) :
    Prop :=
  ∀ byte, (∀ region ∈ regions, byte < region.addr ∨ region.payload platform ≤ byte) →
    changed byte = memory byte

variable {platform : Platform} {kernel : Kernel} {mm : TsoMmMapping} {heap : Heap platform}
  {fuel : Nat}

/-- A call changes memory only in the headers of regions of the old or the new heap. -/
theorem Outcome.Realizes.headersOnly {outcome : Outcome} {result : Heap platform × Answer}
    (realizes : outcome.Realizes kernel heap result) :
    HeadersOnly platform (heap.regions ++ result.1.regions) kernel.memory
      outcome.kernel.memory := by
  intro byte outside
  refine realizes.frame byte fun word member inside => ?_
  obtain ⟨region, regionMember, low, high⟩ := realizes.stores word member
  have apart := outside region regionMember
  obtain ⟨above, below⟩ := inside
  omega

theorem Heap.add_base (heap : Heap platform) {size : Nat} {room : Room Region}
    (admits : heap.Admits (platform.headerSize + size) room) :
    platform.add room.base platform.headerSize = room.base + platform.headerSize := by
  have placed := (heap.place size room admits).payload_lt ⟨room.base, size⟩
    ((heap.mem_place admits).mpr (Or.inl rfl))
  exact Platform.add_of_lt (lt_of_lt_of_le placed heap.fits)

/-- `sys_tso_mm_alloc` once the task has a mapping. -/
theorem alloc_realizes (represents : Represents mm kernel.memory heap) {size : Nat}
    {observed : Nat → BitVec 32} (environment : Environment) {strategy : AllocationStrategy}
    (constant : ∀ read, AllocationStrategy.ofValue (observed read) = some strategy)
    (enough : heap.regions.length < fuel)
    (fits : platform.headerSize + size < platform.modulus) :
    ∃ outcome, allocMapped platform fuel observed environment size kernel mm = .ok outcome ∧
      outcome.Realizes kernel heap (heap.alloc strategy environment size) := by
  refine ⟨_, allocMapped_represents represents environment constant enough fits, ?_⟩
  cases chosen : heap.choose strategy (platform.headerSize + size) with
  | none =>
    rw [Heap.alloc_of_none chosen]
    exact {
      answer := rfl
      represents := ⟨mm, rfl, represents⟩
      strategy := rfl
      stores := by intro word member; cases member
      frame := fun _ _ => rfl }
  | some room =>
    have admits := heap.admits_of_choose chosen
    rw [Heap.alloc_of_some chosen]
    have payload := heap.add_base admits
    exact {
      answer := by
        show (⟨0, if environment.copyToUser = 0 then
          some (platform.add room.base platform.headerSize) else none⟩ : Answer) = _
        rw [payload]
      represents := ⟨_, rfl, represents.place admits⟩
      strategy := rfl
      stores := by
        intro word member
        rcases placedStores_within admits member with ⟨low, high⟩ | ⟨region, regionMember, rfl⟩
        · exact ⟨⟨room.base, size⟩,
            List.mem_append_right _ ((heap.mem_place admits).mpr (Or.inl rfl)), low, high⟩
        · refine ⟨region, List.mem_append_left _ regionMember, le_rfl, ?_⟩
          unfold Region.payload Platform.headerSize
          omega
      frame := fun byte outside => placedMemory_of_outside outside }

/-- On a heap the comparison of the walk is exact. -/
theorem Heap.matches_iff (heap : Heap platform) {addr : Nat} {region : Region}
    (member : region ∈ heap.regions) :
    Matches platform addr region ↔ region.payload platform = addr := by
  have inside := heap.payload_lt region member
  have fits := heap.fits
  unfold Matches
  rw [Platform.add_of_lt (by unfold Region.payload at inside; omega)]
  rfl

/-- Giving back a region makes the counter exact again. -/
theorem Represents.add_free (represents : Represents mm kernel.memory heap)
    {front back : List Region} {region : Region}
    (split : heap.regions = front ++ region :: back) :
    platform.add mm.free (regionSize platform region.size) =
      (heap.release (region.payload platform)).freeBytes := by
  have member : region ∈ heap.regions := by
    rw [split]
    exact List.mem_append_cons_self
  have inside := heap.within member
  have valid := heap.addr_ne_zero member
  have fits := heap.fits
  have returned := heap.used_release split
  have used := heap.used_le
  have small := platform.initialSize_lt_modulus
  rw [regionSize_of_top_le (by omega) inside.2 fits, represents.free]
  unfold Heap.freeBytes
  rw [Platform.add_of_lt (by omega)]
  omega

/-- Freeing the address of a region is answered with 0. -/
theorem Heap.free_answer (heap : Heap platform) {region : Region} (member : region ∈ heap.regions) :
    (heap.free (region.payload platform)).2 = ⟨0, none⟩ := by
  have has : heap.Has (region.payload platform) := ⟨region, member, rfl⟩
  simp only [Heap.free, has, true_or, if_true]

/-- A free of an address that no region has. -/
theorem free_miss_realizes (mapped : kernel.currentMm = some mm)
    (represents : Represents mm kernel.memory heap) {addr : Nat}
    (others : ∀ region ∈ heap.regions, ¬ Matches platform addr region)
    (enough : heap.regions.length ≤ fuel) :
    ∃ outcome, sysTsoMmFree platform fuel addr kernel = .ok outcome ∧
      outcome.Realizes kernel heap (heap.free addr) := by
  have unknown : ∀ region ∈ heap.regions, region.payload platform ≠ addr :=
    fun region member same => others region member ((heap.matches_iff member).mpr same)
  have missing : ¬ heap.Has addr := by
    rintro ⟨region, member, same⟩
    exact unknown region member same
  refine ⟨_, free_miss mapped represents.toDescribes others enough, ?_⟩
  unfold Heap.free
  rw [heap.release_of_notMem unknown]
  exact {
    answer := by
      show (⟨_, none⟩ : Answer) = ⟨_, none⟩
      simp only [missing, false_or, unchanged]
    represents := ⟨mm, mapped, represents⟩
    strategy := rfl
    stores := by intro word member; cases member
    frame := fun _ _ => rfl }

/-- A free of the first region, which is unlinked from the record. -/
theorem free_first_realizes (mapped : kernel.currentMm = some mm)
    (represents : Represents mm kernel.memory heap) {region : Region} {back : List Region}
    (split : heap.regions = region :: back)
    (found : Matches platform (region.payload platform) region) :
    ∃ outcome, sysTsoMmFree platform fuel (region.payload platform) kernel = .ok outcome ∧
      outcome.Realizes kernel heap (heap.free (region.payload platform)) := by
  have front : heap.regions = [] ++ region :: back := split
  have rest := heap.release_regions front
  have listed := represents.listed
  rw [split] at listed
  refine ⟨_, free_first mapped represents.toDescribes split found, ?_⟩
  exact {
    answer := (heap.free_answer (split ▸ List.mem_cons_self)).symm
    represents := by
      refine ⟨_, rfl, ⟨⟨represents.start, represents.size, ?_⟩, represents.add_free front⟩⟩
      show Listed platform kernel.memory _ (heap.release (region.payload platform)).regions
      rw [rest]
      exact (listed_cons.mp listed).2.2.2
    strategy := rfl
    stores := by intro word member; cases member
    frame := fun _ _ => rfl }

/-- A free of a region behind another one, which is linked past it. -/
theorem free_behind_realizes (mapped : kernel.currentMm = some mm)
    (represents : Represents mm kernel.memory heap) {front back : List Region}
    {behind region : Region} (split : heap.regions = front ++ behind :: region :: back)
    (before : ∀ other ∈ front ++ [behind], ¬ Matches platform (region.payload platform) other)
    (found : Matches platform (region.payload platform) region)
    (enough : heap.regions.length ≤ fuel) :
    ∃ outcome, sysTsoMmFree platform fuel (region.payload platform) kernel = .ok outcome ∧
      outcome.Realizes kernel heap (heap.free (region.payload platform)) := by
  have behindMember : behind ∈ heap.regions := split ▸ List.mem_append_cons_self
  have here : heap.regions = (front ++ [behind]) ++ region :: back := by
    rw [split, List.append_assoc, List.singleton_append]
  have member : region ∈ heap.regions := here ▸ List.mem_append_cons_self
  have rest := heap.release_regions here
  refine ⟨_, free_behind mapped represents.toDescribes split before found enough, ?_⟩
  exact {
    answer := (heap.free_answer member).symm
    represents := by
      refine ⟨_, rfl, ⟨⟨represents.start, represents.size, ?_⟩, represents.add_free here⟩⟩
      show Listed platform _ mm.firstRegion (heap.release (region.payload platform)).regions
      rw [rest, List.append_assoc, List.singleton_append]
      exact heap.listed_remove split represents.listed
    strategy := rfl
    stores := by
      intro word wordMember
      obtain rfl := List.mem_singleton.mp wordMember
      refine ⟨behind, List.mem_append_left _ behindMember, le_rfl, ?_⟩
      unfold Region.payload Platform.headerSize
      omega
    frame := fun byte outside => ByteMemory.store_of_notInWord
      (outside behind.addr (List.mem_singleton_self _)) }

/-- `sys_tso_mm_free` once the task has a mapping. -/
theorem free_realizes (mapped : kernel.currentMm = some mm)
    (represents : Represents mm kernel.memory heap) (addr : Nat)
    (enough : heap.regions.length ≤ fuel) :
    ∃ outcome, sysTsoMmFree platform fuel addr kernel = .ok outcome ∧
      outcome.Realizes kernel heap (heap.free addr) := by
  rcases match_cases platform addr heap.regions with
    others | ⟨front, region, back, split, found, before⟩
  · exact free_miss_realizes mapped represents others enough
  · obtain rfl := (heap.matches_iff (split ▸ List.mem_append_cons_self)).mp found
    rcases List.eq_nil_or_concat front with rfl | ⟨others, behind, shape⟩
    · exact free_first_realizes mapped represents split found
    · rw [List.concat_eq_append] at shape
      subst shape
      have splitBehind : heap.regions = others ++ behind :: region :: back := by
        rw [split, List.append_assoc, List.singleton_append]
      exact free_behind_realizes mapped represents splitBehind before found enough

end TsoAlloc
