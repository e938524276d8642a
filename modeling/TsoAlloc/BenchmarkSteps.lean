/-
This file proves what one iteration of the loops of the benchmark does. While the array holds
the live blocks of the kernel, an iteration of `run_allocations` adds one block to both or to
neither: the shuffle copies an entry behind the others before it is known whether the
allocation succeeds, and that slot counts only if it does. An iteration of
`run_deallocations_down_to` takes one block out of both. No access to the array goes wrong.
-/

import TsoAlloc.Benchmark
import TsoAlloc.Placement

namespace TsoAlloc

/-- The entry that names a region. -/
def Region.entry (platform : Platform) (region : Region) : Alloc :=
  ⟨region.payload platform, region.size⟩

/-- The array holds the regions of the task, and the benchmark counts the bytes as free that no
payload takes. -/
structure Program.Tracks {platform : Platform} (program : Program) (task : TaskState platform) :
    Prop where
  models : program.kernel.Models task
  entries : (task.regions.map (Region.entry platform)).Perm program.benchmark.entries
  bytes : program.benchmark.freeSpace + (task.regions.map Region.size).sum = platform.initialSize

variable {platform : Platform} {kernel : Kernel}

/-! ### Payloads and headers -/

/-- The regions take their payloads and as many headers. -/
theorem Layout.used_eq (layout : Layout platform) :
    layout.used = platform.headerSize * layout.regions.length +
      (layout.regions.map Region.size).sum := by
  unfold Layout.used
  generalize layout.regions = regions
  induction regions with
  | nil => rfl
  | cons region regions inductionHypothesis =>
    simp only [List.map_cons, List.sum_cons, List.length_cons, inductionHypothesis]
    ring

/-- A mapping holds fewer regions than the loops of a call have rounds. -/
theorem Layout.length_lt_callRounds (layout : Layout platform) :
    layout.regions.length < callRounds platform := by
  have used := layout.used_le
  rw [layout.used_eq] at used
  have headers : layout.regions.length ≤ platform.headerSize * layout.regions.length :=
    Nat.le_mul_of_pos_left _ platform.headerSize_pos
  unfold callRounds
  omega

theorem TaskState.sum_size_le (task : TaskState platform) :
    (task.regions.map Region.size).sum ≤ platform.initialSize := by
  obtain ⟨strategy, _ | heap⟩ := task
  · exact Nat.zero_le _
  · have used := heap.used_le
    rw [heap.used_eq] at used
    exact le_trans (Nat.le_add_left _ _) used

/-! ### The library on a heap -/

/-- `tso_alloc` returns `NULL` and leaves the regions, or it returns the address of the region that
it places. -/
theorem Kernel.Models.tsoAlloc {task : TaskState platform} (models : kernel.Models task)
    {environment : Environment} (grants : environment.Grants platform)
    (copied : environment.copyToUser = 0) {size : Nat}
    (fits : platform.headerSize + size < platform.modulus) :
    ∃ address after,
      tsoAlloc platform (callRounds platform) environment size kernel = .ok (address, after) ∧
        ((address = 0 ∧ after.Models
            (⟨task.strategy, some (task.heapFor grants)⟩ : TaskState platform)) ∨
          ∃ room admits, address = room.base + platform.headerSize ∧ after.Models
            (⟨task.strategy, some ((task.heapFor grants).place size room admits)⟩ :
              TaskState platform)) := by
  obtain ⟨outcome, returned, realizes, refined⟩ :=
    models.alloc_realizes grants fits (task.heapFor grants).length_lt_callRounds
  have answer : outcome.answer =
      ((task.heapFor grants).alloc task.strategy environment size).2 := realizes.answer
  have after : outcome.kernel.Models (⟨task.strategy,
      some ((task.heapFor grants).alloc task.strategy environment size).1⟩ : TaskState platform) :=
    refined
  refine ⟨outcome.answer.delivered.getD 0, outcome.kernel, ?_, ?_⟩
  · unfold TsoAlloc.tsoAlloc
    rw [returned]
    rfl
  rw [answer]
  obtain nothing | ⟨room, chosen⟩ := Option.eq_none_or_eq_some
    ((task.heapFor grants).choose task.strategy (platform.headerSize + size))
  · rw [Heap.alloc_of_none nothing] at after ⊢
    exact Or.inl ⟨rfl, after⟩
  · rw [Heap.alloc_of_some chosen] at after ⊢
    refine Or.inr ⟨room, (task.heapFor grants).admits_of_choose chosen, ?_, after⟩
    simp only [copied, if_true, Option.getD_some]

theorem Kernel.Models.tsoFree {strategy : AllocationStrategy} {heap : Heap platform}
    (models : kernel.Models (⟨strategy, some heap⟩ : TaskState platform)) (address : Nat) :
    ∃ res after, tsoFree platform (callRounds platform) address kernel = .ok (res, after) ∧
      after.Models (⟨strategy, some (heap.release address)⟩ : TaskState platform) := by
  obtain ⟨outcome, returned, _, after⟩ :=
    models.free_realizes address heap.length_lt_callRounds.le
  refine ⟨if syscall outcome.ret ≠ 0 then 0 else -1, outcome.kernel, ?_, after⟩
  unfold TsoAlloc.tsoFree
  rw [returned]
  rfl

/-! ### One iteration -/

theorem Benchmark.read_eq (benchmark : Benchmark) {slot : Nat} (inside : slot < maxTotalAllocs) :
    benchmark.read slot = .ok (benchmark.allocs slot) := by
  have bounds : (0 : Int) ≤ slot ∧ (slot : Int) < maxTotalAllocs :=
    ⟨Int.natCast_nonneg _, Int.ofNat_lt.mpr inside⟩
  rw [read, if_pos bounds, Int.toNat_natCast]

theorem Benchmark.write_eq (benchmark : Benchmark) {slot : Nat} (inside : slot < maxTotalAllocs)
    (alloc : Alloc) : benchmark.write slot alloc =
      .ok { benchmark with allocs := Function.update benchmark.allocs slot alloc } := by
  rw [write, if_pos inside]

/-- The entry of a slot is copied to the first unused slot. -/
def Benchmark.moved (benchmark : Benchmark) (place : Nat) : Benchmark :=
  { benchmark with
    allocs := Function.update benchmark.allocs benchmark.allocsSize (benchmark.allocs place) }

/-- The entry of the slot that the shuffle picks goes to the first unused slot. -/
theorem Benchmark.moveEntry_eq (benchmark : Benchmark) {place : Nat}
    (picked : place < benchmark.allocsSize ∨ place = 0 ∧ benchmark.allocsSize = 0)
    (short : benchmark.allocsSize < maxTotalAllocs) :
    benchmark.moveEntry place = .ok (benchmark.moved place) := by
  unfold moveEntry moved
  by_cases last : place = benchmark.allocsSize
  · rw [if_neg (not_not.mpr last), last, Function.update_eq_self]
  · have inside : place < maxTotalAllocs := by omega
    rw [if_pos last, benchmark.read_eq inside]
    exact benchmark.write_eq short _

@[simp]
theorem Benchmark.entries_moved (benchmark : Benchmark) (place : Nat) :
    (benchmark.moved place).entries = benchmark.entries :=
  Shuffle.entries_update_of_le _ _ (Nat.le_refl _)

/-- With a jitter no larger than the mean, no negative size is asked for. -/
theorem expectedSize_nonneg (surroundings : Surroundings) (p : Parameters) (draws : Nat) :
    ∃ expected next, expectedSize surroundings p draws = .ok (expected, next) ∧ 0 ≤ expected := by
  unfold expectedSize
  by_cases jitters : 0 < p.jitter
  · have divisor : (p.jitter : Int) * 2 ≠ 0 := by omega
    have offset : 0 ≤ (surroundings.rand draws : Int).tmod (p.jitter * 2) :=
      Int.tmod_nonneg _ (Int.natCast_nonneg _)
    have mean := p.jitter_le_mean
    simp only [jitters, if_true, remainder, divisor, if_false, bind, Except.bind]
    exact ⟨_, _, rfl, by omega⟩
  · simp only [jitters, if_false]
    exact ⟨_, _, rfl, Int.natCast_nonneg _⟩

section

variable {surroundings : Surroundings} {p : Parameters} {program : Program}

/-- The benchmark with a new block in the slot that the shuffle picks. -/
def Benchmark.added (benchmark : Benchmark) (place : Nat) (alloc : Alloc) : Benchmark :=
  { benchmark with
    allocs := Shuffle.insert benchmark.allocs benchmark.allocsSize place alloc
    allocsSize := benchmark.allocsSize + 1
    freeSpace := benchmark.freeSpace - alloc.size
    allocsNumber := benchmark.allocsNumber + 1 }

/-- An iteration of `run_allocations` adds the block that `tso_alloc` returns, or leaves the
entries. -/
theorem Program.allocOne_eq (short : program.benchmark.allocsSize < maxTotalAllocs)
    {expected : Int} {draws size address : Nat} {after : Kernel}
    (drawn : expectedSize surroundings p (program.draws + 1) = .ok (expected, draws))
    (taken : (if program.benchmark.freeSpace < expected then program.benchmark.freeSpace
      else expected) = size) (word : size < platform.modulus)
    (returned : tsoAlloc platform (callRounds platform) surroundings.environment size
      program.kernel = .ok (address, after)) :
    program.allocOne platform surroundings p =
      if address = 0 then
        .ok (false, { program with
          benchmark := program.benchmark.moved
            (surroundings.slot program.draws program.benchmark.allocsSize)
          kernel := after
          draws := draws }.checkpoint)
      else
        .ok (true, { program with
          benchmark := program.benchmark.added
            (surroundings.slot program.draws program.benchmark.allocsSize) ⟨address, size⟩
          kernel := after
          draws := draws }.checkpoint) := by
  have picked := surroundings.slot_lt program.draws program.benchmark.allocsSize
  have inside : surroundings.slot program.draws program.benchmark.allocsSize < maxTotalAllocs := by
    omega
  have asked : ((size : Int) % platform.modulus).toNat = size := by
    rw [Int.emod_eq_of_lt (Int.natCast_nonneg _) (Int.ofNat_lt.mpr word), Int.toNat_natCast]
  have free : (program.benchmark.moved (surroundings.slot program.draws
      program.benchmark.allocsSize)).freeSpace = program.benchmark.freeSpace := rfl
  unfold Program.allocOne
  simp only [program.benchmark.moveEntry_eq picked short, drawn, free, taken, asked, returned,
    Benchmark.write_eq _ inside, bind, Except.bind, Except.mapError]
  rfl

/-- What an iteration leaves: the task is tracked on, with a mapping, and the state is noted. -/
structure Program.Continues {platform : Platform} (before after : Program)
    (task : TaskState platform) : Prop where
  tracks : after.Tracks task
  mapped : task.heap ≠ none
  noted : after.checkpoints = (after.benchmark, after.kernel) :: before.checkpoints
  maxDeallocs : after.benchmark.maxDeallocs = before.benchmark.maxDeallocs

/-- An iteration of `run_allocations` adds an entry and its block, or neither. -/
theorem Program.Tracks.allocOne {task : TaskState platform} (tracks : program.Tracks task)
    (grants : surroundings.environment.Grants platform)
    (copied : surroundings.environment.copyToUser = 0)
    (room : platform.headerSize + platform.initialSize < platform.modulus)
    (short : program.benchmark.allocsSize < maxTotalAllocs) :
    ∃ allocated after, ∃ next : TaskState platform,
      program.allocOne platform surroundings p = .ok (allocated, after) ∧
        program.Continues after next ∧
          after.benchmark.allocsSize = program.benchmark.allocsSize + allocated.toNat := by
  obtain ⟨models, entries, bytes⟩ := tracks
  have payloads := task.sum_size_le
  rw [← task.regions_heapFor grants] at entries bytes payloads
  obtain ⟨expected, draws, drawn, wanted⟩ :=
    expectedSize_nonneg surroundings p (program.draws + 1)
  -- The size asked for is neither negative nor larger than the mapping.
  obtain ⟨size, taken⟩ : ∃ size : Nat, (if program.benchmark.freeSpace < expected then
      program.benchmark.freeSpace else expected) = size :=
    Int.eq_ofNat_of_zero_le (by split <;> omega)
  have small : size ≤ platform.initialSize := by
    split at taken <;> omega
  obtain ⟨address, after, returned, outcome⟩ :=
    @Kernel.Models.tsoAlloc platform _ task models _ grants copied size (by omega)
  rw [Program.allocOne_eq short drawn taken (by omega) returned]
  rcases outcome with ⟨rfl, refined⟩ | ⟨gap, admits, rfl, refined⟩
  · refine ⟨false, _, _, if_pos rfl, ⟨⟨refined, ?_, bytes⟩, Option.some_ne_none _, rfl, rfl⟩, rfl⟩
    exact entries.trans (List.Perm.of_eq (Benchmark.entries_moved _ _).symm)
  · have valid : gap.base + platform.headerSize ≠ 0 := by
      have := platform.headerSize_pos
      omega
    have picked := surroundings.slot_lt program.draws program.benchmark.allocsSize
    have shuffled := Shuffle.entries_insert_perm program.benchmark.allocs
      ⟨gap.base + platform.headerSize, size⟩ (show surroundings.slot program.draws
        program.benchmark.allocsSize ≤ program.benchmark.allocsSize by omega)
    have placed := insertRegion_perm (task.heapFor grants).regions ⟨gap.base, size⟩
    refine ⟨true, _, _, if_neg valid, ⟨⟨refined, ?_, ?_⟩, Option.some_ne_none _, rfl, rfl⟩, rfl⟩
    · exact (placed.map _).trans ((entries.cons _).trans shuffled.symm)
    · have sum : (((task.heapFor grants).place size gap admits).regions.map Region.size).sum =
          size + ((task.heapFor grants).regions.map Region.size).sum :=
        (placed.map Region.size).sum_eq
      simp only [Program.checkpoint, Benchmark.added, TaskState.regions_some, sum]
      omega

/-- The benchmark without its last entry. -/
def Benchmark.dropped (benchmark : Benchmark) (alloc : Alloc) : Benchmark :=
  { benchmark with
    deallocsNumber := benchmark.deallocsNumber + 1
    freeSpace := benchmark.freeSpace + alloc.size
    allocsSize := benchmark.allocsSize - 1 }

/-- An iteration of `run_deallocations_down_to` gives the last block to `tso_free`. -/
theorem Program.freeOne_eq {downTo : Int} (more : downTo < program.benchmark.allocsSize)
    {size : Nat} (held : program.benchmark.allocsSize = size + 1)
    (bound : program.benchmark.allocsSize ≤ maxTotalAllocs) {res : Int} {after : Kernel}
    (returned : tsoFree platform (callRounds platform) (program.benchmark.allocs size).address
      program.kernel = .ok (res, after)) :
    program.freeOne platform downTo = .ok (.inl { program with
      benchmark := program.benchmark.dropped (program.benchmark.allocs size)
      kernel := after }.checkpoint) := by
  have last : (program.benchmark.allocsSize : Int) - 1 = size := by omega
  have inside : size < maxTotalAllocs := by omega
  unfold Program.freeOne
  simp only [more, if_true, last, program.benchmark.read_eq inside, returned, bind, Except.bind,
    Except.mapError]
  rfl

/-- An iteration of `run_deallocations_down_to` takes out an entry and its block. -/
theorem Program.Tracks.freeOne {task : TaskState platform} (tracks : program.Tracks task)
    {downTo : Int} (more : downTo < program.benchmark.allocsSize) {size : Nat}
    (held : program.benchmark.allocsSize = size + 1)
    (bound : program.benchmark.allocsSize ≤ maxTotalAllocs) :
    ∃ after, ∃ next : TaskState platform, program.freeOne platform downTo = .ok (.inl after) ∧
      program.Continues after next ∧ after.benchmark.allocsSize = size := by
  obtain ⟨models, entries, bytes⟩ := tracks
  rw [Benchmark.entries, held, Shuffle.entries_succ] at entries
  obtain ⟨region, member, named⟩ :=
    List.mem_map.mp (entries.symm.subset (List.mem_append_right _ List.mem_cons_self))
  obtain ⟨strategy, _ | heap⟩ := task
  · cases member
  obtain ⟨res, after, returned, refined⟩ := models.tsoFree (region.payload platform)
  have address : (program.benchmark.allocs size).address = region.payload platform := by
    rw [← named]
    rfl
  have taken : (program.benchmark.allocs size).size = region.size := by
    rw [← named]
    rfl
  rw [← address] at returned
  have released := heap.release_perm member
  have blocks := released.map (Region.entry platform)
  have sum : (heap.regions.map Region.size).sum =
      region.size + ((heap.release (region.payload platform)).regions.map Region.size).sum :=
    (released.map Region.size).sum_eq
  rw [List.map_cons, named] at blocks
  refine ⟨_, _, Program.freeOne_eq more held bound returned,
    ⟨⟨refined, ?_, ?_⟩, Option.some_ne_none _, rfl, rfl⟩, ?_⟩
  · have front := (blocks.symm.trans entries).trans (List.perm_append_singleton _ _)
    simpa [Program.checkpoint, Benchmark.dropped, Benchmark.entries, held] using front.cons_inv
  · simp only [Program.checkpoint, Benchmark.dropped, TaskState.regions_some, taken]
    simp only [TaskState.regions_some, sum] at bytes
    omega
  · simp only [Program.checkpoint, Benchmark.dropped, held, Nat.add_sub_cancel]

end

end TsoAlloc
