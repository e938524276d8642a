/-
This file says how long the benchmarks of the three strategies are one and the same. Each of
them seeds `rand` anew and begins with an empty heap; the first batch of allocations frees
nothing, so its blocks pile up and every strategy finds the same place for the next one. So
up to the first deallocation a benchmark computes the same under every strategy, to the last
byte and whatever it draws: the strategy itself is all the difference.
-/

import TsoAlloc.BenchmarkSuite
import TsoAlloc.StackDiscipline
import TsoAlloc.Traces

namespace TsoAlloc

/-! ### Another strategy -/

/-- The same state under another strategy. -/
def Kernel.following (strategy : AllocationStrategy) (kernel : Kernel) : Kernel :=
  { kernel with currentStrategy := strategy.value }

/-- The same program under another strategy, now and at the ends of its iterations. -/
def Program.following (strategy : AllocationStrategy) (program : Program) : Program :=
  { program with
    kernel := program.kernel.following strategy
    checkpoints := program.checkpoints.map fun checkpoint =>
      (checkpoint.1, checkpoint.2.following strategy) }

variable {platform : Platform} {kernel : Kernel}

/-- A call that settles on the same gap leaves the same behind. -/
theorem settledOutcome_following (kernel : Kernel) (strategy : AllocationStrategy)
    (environment : Environment) (mm : TsoMmMapping) (size : Nat)
    (found : Option (Extents.Room Region)) :
    (settledOutcome platform environment (kernel.following strategy) mm size found).delivered =
        (settledOutcome platform environment kernel mm size found).delivered ∧
      (settledOutcome platform environment (kernel.following strategy) mm size found).kernel =
        (settledOutcome platform environment kernel mm size found).kernel.following strategy := by
  cases found with
  | none => exact ⟨rfl, rfl⟩
  | some room => exact ⟨rfl, rfl⟩

/-- In a state that models a task, `tso_alloc` settles on what the strategy chooses. -/
theorem Kernel.Models.tsoAlloc_eq {strategy : AllocationStrategy} {heap : Option (Heap platform)}
    (models : kernel.Models (⟨strategy, heap⟩ : TaskState platform)) {environment : Environment}
    (grants : environment.Grants platform) {mm : TsoMmMapping}
    (uses : kernel.Uses platform environment mm)
    (represents : Represents mm kernel.memory (heap.getD grants.heap)) {size : Nat}
    (fits : platform.headerSize + size < platform.modulus) :
    TsoAlloc.tsoAlloc platform (callRounds platform) environment size kernel =
      .ok ((settledOutcome platform environment kernel mm size ((heap.getD grants.heap).choose
          strategy (platform.headerSize + size))).delivered.getD 0,
        (settledOutcome platform environment kernel mm size ((heap.getD grants.heap).choose
          strategy (platform.headerSize + size))).kernel) := by
  have constant : ∀ _ : Nat, AllocationStrategy.ofValue kernel.currentStrategy = some strategy :=
    fun _ => by rw [models.1, ofValue_value]
  have returned := allocMapped_represents represents environment constant
    (heap.getD grants.heap).length_lt_callRounds fits
  unfold TsoAlloc.tsoAlloc invoke sysTsoMmAlloc
  simp only [uses.alloc_eq, returned, bind, Except.bind]

/-- On a stack `tso_alloc` does the same under every strategy. -/
theorem Kernel.Models.tsoAlloc_following {task : TaskState platform} (models : kernel.Models task)
    {ledger : List Block} (isStack : task.IsStack ledger) {environment : Environment}
    (grants : environment.Grants platform) (copied : environment.copyToUser = 0) {size : Nat}
    (fits : platform.headerSize + size < platform.modulus) (other : AllocationStrategy) :
    ∃ address after, ∃ next : TaskState platform, ∃ nextLedger,
      TsoAlloc.tsoAlloc platform (callRounds platform) environment size kernel =
          .ok (address, after) ∧
        TsoAlloc.tsoAlloc platform (callRounds platform) environment size
            (kernel.following other) = .ok (address, after.following other) ∧
          after.Models next ∧ next.IsStack nextLedger := by
  obtain ⟨strategy, heap⟩ := task
  obtain ⟨mm, uses, represents⟩ := models.2.uses grants
  have otherModels : (kernel.following other).Models (⟨other, heap⟩ : TaskState platform) :=
    ⟨rfl, models.2.congr rfl rfl⟩
  have otherUses : (kernel.following other).Uses platform environment mm := uses
  have stack : (heap.getD grants.heap).IsStack ledger := by
    cases heap with
    | none =>
      obtain rfl : ledger = [] := isStack
      exact ⟨trivial, rfl⟩
    | some heap => exact isStack
  have same : (heap.getD grants.heap).choose other (platform.headerSize + size) =
      (heap.getD grants.heap).choose strategy (platform.headerSize + size) := by
    rw [stack.choose_eq, stack.choose_eq]
  have here := models.tsoAlloc_eq grants uses represents fits
  have there := otherModels.tsoAlloc_eq grants otherUses represents fits
  obtain ⟨delivered, left⟩ := @settledOutcome_following platform kernel other environment mm size
    ((heap.getD grants.heap).choose strategy (platform.headerSize + size))
  rw [same, delivered, left] at there
  obtain ⟨outcome, returned, realizes, refined⟩ :=
    models.alloc_realizes grants fits (heap.getD grants.heap).length_lt_callRounds
  have step : TaskState.Step ⟨strategy, heap⟩ _ _ := .alloc strategy heap environment size grants
  obtain ⟨nextStack, _⟩ := isStack.step step copied fun addr free => by cases free
  refine ⟨_, _, _, _, here, there, ?_, nextStack⟩
  have followed : outcome.kernel = (settledOutcome platform environment kernel mm size
      ((heap.getD grants.heap).choose strategy (platform.headerSize + size))).kernel := by
    unfold TsoAlloc.tsoAlloc at here
    rw [returned] at here
    exact (Prod.mk.inj (Except.ok.inj here)).2
  rw [← followed]
  exact refined

theorem TaskState.isStack_of_nil {task : TaskState platform} (nothing : task.regions = []) :
    task.IsStack [] := by
  obtain ⟨strategy, _ | heap⟩ := task
  · exact rfl
  · have none : heap.regions = [] := nothing
    constructor
    · rw [none]
      trivial
    · rw [none]
      rfl

/-! ### A batch without deallocations -/

section

variable {surroundings : Surroundings} {p : Parameters} {program : Program}

/-- An iteration of `run_allocations` on a stack does the same under every strategy. -/
theorem Program.Tracks.allocOne_following {task : TaskState platform} (tracks : program.Tracks task)
    {ledger : List Block} (isStack : task.IsStack ledger) (serves : surroundings.Serves platform)
    (room : platform.headerSize + platform.initialSize < platform.modulus)
    (short : program.benchmark.allocsSize < maxTotalAllocs) (other : AllocationStrategy) :
    ∃ allocated after, ∃ next : TaskState platform, ∃ nextLedger,
      program.allocOne platform surroundings p = .ok (allocated, after) ∧
        (program.following other).allocOne platform surroundings p =
          .ok (allocated, after.following other) ∧
          after.Tracks next ∧ next.IsStack nextLedger ∧
            after.benchmark.allocsSize = program.benchmark.allocsSize + allocated.toNat := by
  obtain ⟨allocated, after, next, iterated, continues, size_eq⟩ :=
    tracks.allocOne (p := p) serves.grants serves.copied room short
  obtain ⟨expected, draws, drawn, wanted⟩ :=
    expectedSize_nonneg surroundings p (program.draws + 1)
  have payloads := task.sum_size_le
  have bytes := tracks.bytes
  obtain ⟨size, taken⟩ : ∃ size : Nat, (if program.benchmark.freeSpace < expected then
      program.benchmark.freeSpace else expected) = size :=
    Int.eq_ofNat_of_zero_le (by split <;> omega)
  have small : size ≤ platform.initialSize := by
    split at taken <;> omega
  obtain ⟨address, later, reached, nextLedger, returned, otherReturned, models, stack⟩ :=
    tracks.models.tsoAlloc_following isStack serves.grants serves.copied
      (by omega : platform.headerSize + size < platform.modulus) other
  have here := Program.allocOne_eq short drawn taken (by omega) returned
  have there := @Program.allocOne_eq platform surroundings p (program.following other) short
    expected draws size address (later.following other) drawn taken (by omega) otherReturned
  rw [here] at iterated
  have kernels : after.kernel = later := by
    split at iterated
    · rw [← (Prod.mk.inj (Except.ok.inj iterated)).2]
      rfl
    · rw [← (Prod.mk.inj (Except.ok.inj iterated)).2]
      rfl
  -- The state models one task, so the one that is tracked is the stack.
  have same : next = reached := continues.tracks.models.unique (kernels ▸ models)
  refine ⟨allocated, after, next, nextLedger, here.trans iterated, ?_, continues.tracks,
    same ▸ stack, size_eq⟩
  rw [there]
  split at iterated
  · obtain ⟨rfl, rfl⟩ := Prod.mk.inj (Except.ok.inj iterated)
    rw [if_pos ‹_›]
    rfl
  · obtain ⟨rfl, rfl⟩ := Prod.mk.inj (Except.ok.inj iterated)
    rw [if_neg ‹_›]
    rfl

/-- The loop of `run_allocations` on a stack does the same under every strategy. -/
theorem Program.Tracks.allocUpTo_following {task : TaskState platform}
    (tracks : program.Tracks task) {ledger : List Block} (isStack : task.IsStack ledger)
    (serves : surroundings.Serves platform)
    (room : platform.headerSize + platform.initialSize < platform.modulus) {count : Nat}
    (enough : program.benchmark.allocsSize + count ≤ maxTotalAllocs)
    (other : AllocationStrategy) :
    (program.following other).allocUpTo platform surroundings p count =
      (program.allocUpTo platform surroundings p count).map fun result =>
        (result.1, result.2.following other) := by
  induction count generalizing program task ledger with
  | zero => rfl
  | succ count inductionHypothesis =>
    obtain ⟨allocated, after, next, nextLedger, here, there, middle, stack, size⟩ :=
      tracks.allocOne_following (p := p) isStack serves room (by omega) other
    simp only [Program.allocUpTo, here, there, bind, Except.bind]
    cases allocated with
    | false => rfl
    | true =>
      have one : true.toNat = 1 := rfl
      exact inductionHypothesis middle stack (by omega)

/-- `run_allocations` on a stack does the same under every strategy. -/
theorem Program.Tracks.runAllocations_following {task : TaskState platform}
    (tracks : program.Tracks task) {ledger : List Block} (isStack : task.IsStack ledger)
    (serves : surroundings.Serves platform)
    (room : platform.headerSize + platform.initialSize < platform.modulus)
    (bound : program.benchmark.allocsSize ≤ maxTotalAllocs) (other : AllocationStrategy) :
    runAllocations platform surroundings p (program.following other) =
      (runAllocations platform surroundings p program).map fun result =>
        (result.1, result.2.following other) := by
  obtain ⟨limit, limited⟩ : ∃ limit : Nat, (if (p.maxAllocs : Int) <
      maxTotalAllocs - program.benchmark.allocsSize then (p.maxAllocs : Int)
        else maxTotalAllocs - program.benchmark.allocsSize) = limit :=
    Int.eq_ofNat_of_zero_le (by split <;> omega)
  have drawn : program.drawn.Tracks task := ⟨tracks.models, tracks.entries, tracks.bytes⟩
  rw [runAllocations_eq limited, @runAllocations_eq platform surroundings p
    (program.following other) limit limited]
  by_cases zero : limit = 0
  · rw [if_pos zero, if_pos zero]
    rfl
  rw [if_neg zero, if_neg zero]
  by_cases none : surroundings.rand program.draws % limit = 0
  · rw [if_pos none]
    exact if_pos none
  rw [if_neg none]
  refine (if_neg none).trans (drawn.allocUpTo_following isStack serves room ?_ other)
  have below := Nat.mod_lt (surroundings.rand program.draws) (Nat.pos_of_ne_zero zero)
  show program.benchmark.allocsSize + surroundings.rand program.draws % limit ≤ maxTotalAllocs
  split at limited <;> omega

/-- `run_allocations` does not look at the strategy among the parameters. -/
theorem runAllocations_parameters (other : AllocationStrategy) :
    runAllocations platform surroundings { p with strategy := other } program =
      runAllocations platform surroundings p program := by
  have looped (count : Nat) (program : Program) :
      program.allocUpTo platform surroundings { p with strategy := other } count =
        program.allocUpTo platform surroundings p count := by
    induction count generalizing program with
    | zero => rfl
    | succ count inductionHypothesis =>
      unfold Program.allocUpTo
      simp only [inductionHypothesis]
      rfl
  unfold runAllocations
  simp only [looped]

end

/-- Up to its first deallocation a benchmark computes the same under every strategy: from an empty
heap, the first call of `run_allocations` returns the same, with the same array, the same counters
and the same memory, record and list, now and at the end of each iteration. -/
theorem firstBatch_eq {surroundings : Surroundings} {start : Program} (p : Parameters)
    (empty : start.kernel.EmptyHeap platform) (serves : surroundings.Serves platform)
    (room : platform.headerSize + platform.initialSize < platform.modulus)
    (other : AllocationStrategy) :
    runAllocations platform surroundings { p with strategy := other }
        (start.init platform { p with strategy := other }).beginRun =
      (runAllocations platform surroundings p (start.init platform p).beginRun).map fun result =>
        (result.1, result.2.following other) := by
  obtain ⟨task, tracks⟩ := (Program.sound_init empty p).tracks
  have begun : (start.init platform p).beginRun.Tracks task :=
    ⟨tracks.models, tracks.entries, tracks.bytes⟩
  have nothing : task.regions = [] := by
    have entries := tracks.entries
    have none : (start.init platform p).benchmark.allocsSize = 0 := rfl
    rw [Benchmark.entries, none, Shuffle.entries_zero, List.perm_nil,
      List.map_eq_nil_iff] at entries
    exact entries
  rw [runAllocations_parameters]
  exact begun.runAllocations_following (TaskState.isStack_of_nil nothing) serves room
    (Nat.zero_le _) other

/-- Two blocks are allocated, under `WORST_FIT` as under `BEST_FIT`. -/
theorem firstBatch_sample : ∃ batch,
    runAllocations Platform.i386 .twoBlocks .large
        (Program.boot.init Platform.i386 .large).beginRun = .ok (true, batch) ∧
      batch.benchmark.allocsSize = 2 ∧
        runAllocations Platform.i386 .twoBlocks { Parameters.large with strategy := .bestFit }
            (Program.boot.init Platform.i386
              { Parameters.large with strategy := .bestFit }).beginRun =
          .ok (true, batch.following .bestFit) := by
  obtain ⟨⟨allocated, batch⟩, returned, seen⟩ := exists_ok
    (fun result : Bool × Program => (result.1, result.2.benchmark.allocsSize))
    (show (runAllocations Platform.i386 .twoBlocks .large
      (Program.boot.init Platform.i386 .large).beginRun).toOption.map _ = some (true, 2) by
        decide +kernel)
  obtain ⟨rfl, size⟩ := Prod.mk.inj seen
  have other := firstBatch_eq .large (Program.boot_emptyHeap Platform.i386)
    Surroundings.twoBlocks_serves (by decide) .bestFit
  rw [returned] at other
  exact ⟨batch, returned, size, other⟩

end TsoAlloc
