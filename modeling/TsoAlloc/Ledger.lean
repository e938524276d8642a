/-
This file keeps the books of a task: the blocks it has been handed and has not freed, as the
answers to its calls tell. While every address is delivered, a call changes the live regions
as it changes the books, and it changes no byte of a block that stays live.
-/

import TsoAlloc.TaskRun

namespace TsoAlloc

/-- A block handed out: the address returned and the bytes requested. -/
structure Block where
  address : Nat
  size : Nat
deriving DecidableEq, Repr

/-- The blocks a task has been handed and has not freed, from the answers to its calls. -/
def record (ledger : List Block) (event : Event) : List Block :=
  match event.call with
  | .alloc _ size => (event.answer.delivered.map fun address => ⟨address, size⟩).toList ++ ledger
  | .free addr => ledger.filter fun block => block.address ≠ addr
  | .switchStrategy _ => ledger

/-- The caller's variable can be written, so that an address is delivered. -/
def Call.Delivers : Call → Prop
  | .alloc environment _ => environment.copyToUser = 0
  | .free _ => True
  | .switchStrategy _ => True

instance : (call : Call) → Decidable call.Delivers
  | .alloc _ _ => inferInstanceAs (Decidable (_ = _))
  | .free _ => .isTrue trivial
  | .switchStrategy _ => .isTrue trivial

section

variable (platform : Platform)

/-- The block that a region holds. -/
def Region.block (region : Region) : Block := ⟨region.payload platform, region.size⟩

end

variable {platform : Platform}

/-! ### Calls and the ledger -/

theorem Heap.block_place (heap : Heap platform) {size : Nat} {room : Extents.Room Region}
    (admits : heap.Admits (platform.headerSize + size) room) :
    ((heap.place size room admits).regions.map (Region.block platform)).Perm
      (⟨room.base + platform.headerSize, size⟩ :: heap.regions.map (Region.block platform)) :=
  (insertRegion_perm heap.regions ⟨room.base, size⟩).map _

theorem Heap.block_release (heap : Heap platform) (addr : Nat) :
    (heap.release addr).regions.map (Region.block platform) =
      (heap.regions.map (Region.block platform)).filter fun block => block.address ≠ addr := by
  rw [List.filter_map]
  rfl

/-- A call changes the blocks as the ledger records it. -/
theorem TaskState.Step.record {task next : TaskState platform} {event : Event}
    (step : task.Step event next) (delivers : event.call.Delivers) {ledger : List Block}
    (tracks : (task.regions.map (Region.block platform)).Perm ledger) :
    (next.regions.map (Region.block platform)).Perm (TsoAlloc.record ledger event) := by
  cases step with
  | alloc strategy heap environment size grants =>
    have delivered : environment.copyToUser = 0 := delivers
    rw [← TaskState.regions_getD strategy heap grants] at tracks
    cases chosen : (heap.getD grants.heap).choose strategy (platform.headerSize + size) with
    | none =>
      rw [Heap.alloc_of_none chosen]
      exact tracks
    | some room =>
      rw [Heap.alloc_of_some chosen]
      simp only [TsoAlloc.record, delivered, if_true, Option.map_some, Option.toList_some,
        List.singleton_append]
      exact ((heap.getD grants.heap).block_place _).trans (tracks.cons _)
  | free strategy heap addr =>
    have released := heap.block_release addr
    show ((heap.release addr).regions.map (Region.block platform)).Perm _
    rw [released]
    exact tracks.filter _
  | switchStrategy strategy next heap => exact tracks

/-- What changes only in the headers of regions that are live before or after a call changes no
payload byte of a region that is live before and after. -/
theorem HeadersOnly.payload {task next : TaskState platform} {memory changed : ByteMemory}
    (frame : HeadersOnly platform (task.regions ++ next.regions) memory changed)
    {region : Region} (before : region ∈ task.regions) (after : region ∈ next.regions) {byte : Nat}
    (low : region.payload platform ≤ byte) (high : byte < region.top platform) :
    changed byte = memory byte := by
  refine frame byte fun other member => ?_
  rcases List.mem_append.mp member with member | member
  · obtain ⟨strategy, _ | heap⟩ := task
    · cases member
    · exact heap.payload_outside before member low high
  · obtain ⟨strategy, _ | heap⟩ := next
    · cases member
    · exact heap.payload_outside after member low high

/-! ### Memory changes beside the headers -/

/-- A record and a memory go on representing a heap when the headers stay. -/
theorem Represents.transport {mm : TsoMmMapping} {memory changed : ByteMemory}
    {heap : Heap platform} (represents : Represents mm memory heap)
    (same : ∀ region ∈ heap.regions, SameHeader platform memory changed region.addr) :
    Represents mm changed heap where
  start := represents.start
  size := represents.size
  listed := represents.listed.transport (fun _ => heap.header_fits) same
  free := represents.free

theorem Kernel.Models.transport {kernel : Kernel} {task : TaskState platform}
    (models : kernel.Models task) {changed : ByteMemory}
    (same : ∀ region ∈ task.regions, SameHeader platform kernel.memory changed region.addr) :
    Kernel.Models { kernel with memory := changed } task := by
  refine ⟨models.1, ?_⟩
  obtain ⟨strategy, _ | heap⟩ := task
  · exact models.2
  · obtain ⟨mm, mapped, represents⟩ := models.2
    exact ⟨mm, mapped, represents.transport same⟩

end TsoAlloc
