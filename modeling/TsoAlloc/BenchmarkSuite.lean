/-
This file runs the benchmark program as a whole. `main` runs `run_benchmark` for every chunk
size, fragmentation and strategy, one after another on one heap, and each run seeds `rand`
anew, so all of them draw the same value first. As long as the shuffle picks slots that there
are, this value decides whether the program gets through: a first batch of no blocks makes
`run_deallocations` divide by zero. Otherwise all runs come to an end, and each leaves a result
that agrees with what the kernel holds when it is saved, and an empty heap for the next one.

The floating-point fields of a result and what is printed are left out, and so is its
`strategy`, which `save_result` never sets.
-/

import TsoAlloc.BenchmarkEnds

namespace TsoAlloc

/-! ### The program -/

/-- `struct result` -/
structure Result where
  description : String
  maxAllocs : Nat
  mean : Nat
  jitter : Nat
  totalBytes : Int
  deallocateAfterFail : Bool
  allocsNumber : Nat
  deallocsNumber : Nat
  freeBytes : Int
deriving DecidableEq, Repr

/-- The length of `results`. -/
def resultsSize : Nat := 50

/-- What the whole program gets from outside. `srand` is given the same seed by every run, so the
first value of `rand` is the same in all of them. The later ones need not be, as it depends on the
variable `place`, which is read before it is set, whether a slot of the shuffle takes up a value.
The slots are assumed to exist, although `rand() % 0` may be computed for an empty array. -/
structure SuiteSurroundings where
  environment : Environment
  firstRand : Nat
  rand : Nat → Nat → Nat
  rand_zero : ∀ index, rand index 0 = firstRand
  slot : Nat → Nat → Nat → Nat
  slot_lt : ∀ index draws size, slot index draws size < size ∨ slot index draws size = 0 ∧ size = 0

/-- What one run gets. -/
def SuiteSurroundings.benchmark (outside : SuiteSurroundings) (index : Nat) : Surroundings where
  environment := outside.environment
  rand := outside.rand index
  slot := outside.slot index
  slot_lt := outside.slot_lt index

/-- The program with `results` and `current_result`. For the statements about them it lists the
results with the state of the kernel when each was saved, the last one first. -/
structure Suite where
  program : Program
  results : Nat → Option Result
  currentResult : Int
  saves : List (Result × Kernel)

/-- `add_to_description` -/
def addToDescription (description str : String) : String := description ++ " " ++ str

/-- What `save_result` puts together. -/
def resultOf (p : Parameters) (description : String) (benchmark : Benchmark) : Result where
  description := String.ofList (description.toList.take 255)
  maxAllocs := p.maxAllocs
  mean := p.mean
  jitter := p.jitter
  totalBytes := benchmark.mappingSize
  deallocateAfterFail := p.deallocateAfterFail
  allocsNumber := benchmark.allocsNumber
  deallocsNumber := benchmark.deallocsNumber
  freeBytes := benchmark.freeSpace

namespace Suite

/-- `save_result` -/
def saveResult (p : Parameters) (description : String) (suite : Suite) : Except Fault Suite :=
  let result := resultOf p description suite.program.benchmark
  if 0 ≤ suite.currentResult ∧ suite.currentResult < resultsSize then
    .ok { suite with
      results := Function.update suite.results suite.currentResult.toNat (some result)
      saves := (result, suite.program.kernel) :: suite.saves }
  else .error .outOfBounds

section

variable (platform : Platform) (outside : SuiteSurroundings) (fuel : Nat)

/-- `run_benchmark`, with `current_result++` of `init_benchmark` and with `save_result`. -/
def runBenchmark (p : Parameters) (description : String) (suite : Suite) :
    Except Fault Suite := do
  let currentResult := suite.currentResult + 1
  let program ← BoundedLoop.run .timeout
    (Program.round platform (outside.benchmark currentResult.toNat) p) fuel
    (suite.program.init platform p)
  let suite ← { suite with program, currentResult }.saveResult p description
  let program ← runFullDeallocation platform suite.program
  .ok { suite with program }

/-- `run_strategies_benchmarks` -/
def runStrategiesBenchmarks (mean jitter : Nat) (ordered : jitter ≤ mean) (p : Parameters)
    (description : String) (suite : Suite) : Except Fault Suite := do
  let p := { p with mean, jitter, jitter_le_mean := ordered }
  let suite ← suite.runBenchmark platform outside fuel { p with strategy := .worstFit }
    (addToDescription description "WORST FIT STRATEGY")
  let suite ← suite.runBenchmark platform outside fuel { p with strategy := .bestFit }
    (addToDescription description "BEST FIT STRATEGY")
  suite.runBenchmark platform outside fuel { p with strategy := .firstFit }
    (addToDescription description "FIRST FIT STRATEGY")

/-- `run_all_benchmarks` -/
def runAllBenchmarks (mean : Nat) (p : Parameters) (description : String) (suite : Suite) :
    Except Fault Suite := do
  let suite ← suite.runStrategiesBenchmarks platform outside fuel mean (mean / 10)
    (Nat.div_le_self _ _) p (addToDescription description "SMALL FRAGMENTATION")
  let suite ← suite.runStrategiesBenchmarks platform outside fuel mean (mean / 5)
    (Nat.div_le_self _ _) p (addToDescription description "MEDIUM FRAGMENTATION")
  let suite ← suite.runStrategiesBenchmarks platform outside fuel mean (mean / 2)
    (Nat.div_le_self _ _) p (addToDescription description "HIGH FRAGMENTATION")
  suite.runStrategiesBenchmarks platform outside fuel mean mean le_rfl p
    (addToDescription description "VERY HIGH FRAGMENTATION")

/-- The parameters that `main` sets. The mean, the jitter and the strategy are set later. -/
def mainParameters : Parameters where
  deallocateAfterFail := true
  jitter := 0
  mean := 0
  deallocFalldown := fun maxDeallocs => truncate (maxDeallocs * (4 / 5))
  maxAllocs := 120
  strategy := .firstFit
  jitter_le_mean := le_rfl

/-- `main` -/
def main (suite : Suite) : Except Fault Suite := do
  let suite ← suite.runAllBenchmarks platform outside fuel 128 mainParameters
    (addToDescription "" "MEDIUM CHUNKS")
  suite.runAllBenchmarks platform outside fuel 512 mainParameters
    (addToDescription "" "BIG CHUNKS")

end

end Suite

/-! ### The strategy in force -/

/-- A call leaves the strategy in force. -/
def Kernel.SameStrategy (kernel : Kernel) (outcome : Outcome) : Prop :=
  outcome.kernel.currentStrategy = kernel.currentStrategy

variable {platform : Platform} {kernel : Kernel}

theorem placeRegion_currentStrategy {environment : Environment} {mm : TsoMmMapping}
    {size fit position : Nat} {state : FitConditions} {outcome : Outcome}
    (returned : placeRegion platform environment kernel mm size fit state position =
      .ok outcome) : kernel.SameStrategy outcome := by
  have kept {stores : List Nat} {delivered : Option Nat} {mm : TsoMmMapping} {memory : ByteMemory}
      (same : (.ok ⟨{ kernel with currentMm := some mm, memory }, 0, delivered, stores⟩ :
        Except Trap Outcome) = .ok outcome) :
      kernel.SameStrategy outcome := by
    rw [← Except.ok.inj same]
    exact rfl
  obtain ⟨_, _, returned⟩ := BoundedLoop.bind_eq_ok.mp returned
  dsimp only at returned
  split at returned <;>
  · obtain ⟨_, _, returned⟩ := BoundedLoop.bind_eq_ok.mp returned
    obtain ⟨_, _, returned⟩ := BoundedLoop.bind_eq_ok.mp returned
    split at returned <;>
    · obtain ⟨_, _, returned⟩ := BoundedLoop.bind_eq_ok.mp returned
      exact kept returned

theorem allocMapped_currentStrategy {fuel size : Nat} {observed : Nat → BitVec 32}
    {environment : Environment} {mm : TsoMmMapping} {outcome : Outcome}
    (returned : allocMapped platform fuel observed environment size kernel mm = .ok outcome) :
    kernel.SameStrategy outcome := by
  unfold allocMapped at returned
  dsimp only at returned
  split at returned
  · rw [← Except.ok.inj returned]
    exact rfl
  obtain ⟨⟨fit, state⟩, _, returned⟩ := BoundedLoop.bind_eq_ok.mp returned
  cases state with
  | ok =>
    obtain ⟨_, _, returned⟩ := BoundedLoop.bind_eq_ok.mp returned
    exact placeRegion_currentStrategy returned
  | start => exact placeRegion_currentStrategy returned
  | noFit =>
    rw [← Except.ok.inj returned]
    exact rfl

theorem sysTsoMmFree_currentStrategy {fuel addr : Nat} {outcome : Outcome}
    (returned : sysTsoMmFree platform fuel addr kernel = .ok outcome) :
    kernel.SameStrategy outcome := by
  unfold sysTsoMmFree at returned
  split at returned
  · cases returned
  split at returned
  · rw [← Except.ok.inj returned]
    exact rfl
  dsimp only at returned
  split at returned
  · obtain ⟨_, _, returned⟩ := BoundedLoop.bind_eq_ok.mp returned
    obtain ⟨_, _, returned⟩ := BoundedLoop.bind_eq_ok.mp returned
    rw [← Except.ok.inj returned]
    exact rfl
  · rename_i mm _ _ _
    obtain ⟨_, _, returned⟩ := BoundedLoop.bind_eq_ok.mp returned
    refine BoundedLoop.run_rule (fun _ => True) (fun walk step _ went => ?_) trivial returned
    unfold Walk.round at went
    split at went
    · rw [← Except.ok.inj went]
      exact rfl
    split at went
    · obtain ⟨_, _, went⟩ := BoundedLoop.bind_eq_ok.mp went
      obtain ⟨_, _, went⟩ := BoundedLoop.bind_eq_ok.mp went
      obtain ⟨_, _, went⟩ := BoundedLoop.bind_eq_ok.mp went
      rw [← Except.ok.inj went]
      exact rfl
    · obtain ⟨_, _, went⟩ := BoundedLoop.bind_eq_ok.mp went
      split at went
      · rw [← Except.ok.inj went]
        exact rfl
      · rw [← Except.ok.inj went]
        trivial

theorem invoke_currentStrategy {fuel : Nat} {call : Call} {outcome : Outcome}
    (returned : invoke platform fuel kernel call = .ok outcome)
    (other : ∀ strategy, call ≠ .switchStrategy strategy) : kernel.SameStrategy outcome := by
  cases call with
  | alloc environment size =>
    unfold invoke sysTsoMmAlloc sysTsoMmAllocObserving at returned
    dsimp only at returned
    split at returned
    · obtain ⟨mm, _, returned⟩ := BoundedLoop.bind_eq_ok.mp returned
      exact allocMapped_currentStrategy returned
    · exact allocMapped_currentStrategy returned
  | free addr => exact sysTsoMmFree_currentStrategy returned
  | switchStrategy strategy => exact absurd rfl (other strategy)

/-! ### Counters -/

/-- Every block that was allocated is held or was freed, the mapping has the given size, and the
strategy in force is the one of the benchmark. -/
structure Program.Accounted (mappingSize : Int) (strategy : AllocationStrategy)
    (program : Program) : Prop where
  counts : program.benchmark.allocsNumber =
    program.benchmark.deallocsNumber + program.benchmark.allocsSize
  mapping : program.benchmark.mappingSize = mappingSize
  follows : program.kernel.Follows strategy

/-- Two benchmarks have the same counters and the same mapping. -/
structure Benchmark.SameCounts (left right : Benchmark) : Prop where
  allocsNumber : left.allocsNumber = right.allocsNumber
  deallocsNumber : left.deallocsNumber = right.deallocsNumber
  allocsSize : left.allocsSize = right.allocsSize
  mappingSize : left.mappingSize = right.mappingSize

theorem Benchmark.sameCounts_of_write {benchmark after : Benchmark} {slot : Nat} {alloc : Alloc}
    (written : benchmark.write slot alloc = .ok after) : after.SameCounts benchmark := by
  unfold write at written
  split at written
  · rw [← Except.ok.inj written]
    exact ⟨rfl, rfl, rfl, rfl⟩
  · cases written

theorem Benchmark.sameCounts_of_moveEntry {benchmark after : Benchmark} {place : Nat}
    (moved : benchmark.moveEntry place = .ok after) : after.SameCounts benchmark := by
  unfold moveEntry at moved
  split at moved
  · obtain ⟨_, _, written⟩ := BoundedLoop.bind_eq_ok.mp moved
    exact sameCounts_of_write written
  · rw [← Except.ok.inj moved]
    exact ⟨rfl, rfl, rfl, rfl⟩

theorem mapError_eq_ok {Failure Other Value : Type} {f : Failure → Other}
    {computation : Except Failure Value} {value : Value}
    (returned : computation.mapError f = .ok value) : computation = .ok value := by
  cases computation with
  | error failure => cases returned
  | ok found => rw [Except.ok.inj returned]

section

variable {surroundings : Surroundings} {p : Parameters} {mappingSize : Int}
  {strategy : AllocationStrategy} {program after : Program}

theorem Program.Accounted.allocOne (accounted : program.Accounted mappingSize strategy)
    {allocated : Bool} (went : program.allocOne platform surroundings p = .ok (allocated, after)) :
    after.Accounted mappingSize strategy := by
  obtain ⟨counts, mapping, follows⟩ := accounted
  obtain ⟨moved, moving, went⟩ := BoundedLoop.bind_eq_ok.mp went
  obtain ⟨⟨expected, draws⟩, _, went⟩ := BoundedLoop.bind_eq_ok.mp went
  obtain ⟨⟨address, kernel⟩, called, went⟩ := BoundedLoop.bind_eq_ok.mp went
  obtain ⟨outcome, invoked, _, rfl⟩ := tsoAlloc_eq_ok (mapError_eq_ok called)
  have kept := invoke_currentStrategy invoked nofun
  obtain ⟨allocs, deallocs, size, same⟩ := Benchmark.sameCounts_of_moveEntry moving
  dsimp only at went
  split at went
  · obtain ⟨_, rfl⟩ := Prod.mk.inj (Except.ok.inj went)
    exact ⟨by dsimp only [checkpoint]; omega, same.trans mapping, kept.trans follows⟩
  · obtain ⟨written, writing, went⟩ := BoundedLoop.bind_eq_ok.mp went
    obtain ⟨allocsWritten, deallocsWritten, sizeWritten, sameWritten⟩ :=
      Benchmark.sameCounts_of_write writing
    obtain ⟨_, rfl⟩ := Prod.mk.inj (Except.ok.inj went)
    exact ⟨by dsimp only [checkpoint]; omega, (sameWritten.trans same).trans mapping,
      kept.trans follows⟩

/-- The loop of `run_allocations`. -/
theorem Program.Accounted.allocUpTo {count : Nat}
    (accounted : program.Accounted mappingSize strategy) {allocated : Bool}
    (went : program.allocUpTo platform surroundings p count = .ok (allocated, after)) :
    after.Accounted mappingSize strategy := by
  induction count generalizing program with
  | zero =>
    obtain ⟨_, rfl⟩ := Prod.mk.inj (Except.ok.inj went)
    exact accounted
  | succ count inductionHypothesis =>
    obtain ⟨⟨goesOn, middle⟩, first, went⟩ := BoundedLoop.bind_eq_ok.mp went
    dsimp only at went
    split at went
    · exact inductionHypothesis (accounted.allocOne first) went
    · obtain ⟨_, rfl⟩ := Prod.mk.inj (Except.ok.inj went)
      exact accounted.allocOne first

theorem Program.Accounted.runAllocations (accounted : program.Accounted mappingSize strategy)
    {allocated : Bool}
    (went : runAllocations platform surroundings p program = .ok (allocated, after)) :
    after.Accounted mappingSize strategy := by
  obtain ⟨upTo, _, went⟩ := BoundedLoop.bind_eq_ok.mp went
  have drawn : { program with draws := program.draws + 1 }.Accounted mappingSize strategy :=
    ⟨accounted.counts, accounted.mapping, accounted.follows⟩
  dsimp only at went
  split at went
  · obtain ⟨_, rfl⟩ := Prod.mk.inj (Except.ok.inj went)
    exact drawn
  · exact drawn.allocUpTo went

/-- An iteration of `run_deallocations_down_to` or its end. There is no slot before the first one,
so an iteration that goes well has a block to free. -/
theorem Program.Accounted.freeOne (accounted : program.Accounted mappingSize strategy)
    {downTo : Int} {step : Program ⊕ Program} (went : program.freeOne platform downTo = .ok step) :
    Sum.elim (Program.Accounted mappingSize strategy) (Program.Accounted mappingSize strategy)
      step := by
  obtain ⟨counts, mapping, follows⟩ := accounted
  unfold Program.freeOne at went
  dsimp only at went
  split at went
  · obtain ⟨alloc, read, went⟩ := BoundedLoop.bind_eq_ok.mp went
    obtain ⟨⟨res, kernel⟩, called, went⟩ := BoundedLoop.bind_eq_ok.mp went
    obtain ⟨outcome, invoked, _, rfl⟩ := tsoFree_eq_ok (mapError_eq_ok called)
    have kept := invoke_currentStrategy invoked nofun
    have some : 0 < program.benchmark.allocsSize := by
      unfold Benchmark.read at read
      split at read
      · omega
      · cases read
    rw [← Except.ok.inj went]
    exact ⟨by dsimp only [checkpoint]; omega, mapping, kept.trans follows⟩
  · rw [← Except.ok.inj went]
    exact ⟨counts, mapping, follows⟩

/-- `run_deallocations_down_to` -/
theorem Program.Accounted.runDeallocationsDownTo
    (accounted : program.Accounted mappingSize strategy) {downTo : Int}
    (went : runDeallocationsDownTo platform downTo program = .ok after) :
    after.Accounted mappingSize strategy :=
  BoundedLoop.run_rule (Program.Accounted mappingSize strategy)
    (fun _ _ accounted went => accounted.freeOne went) accounted went

/-- A round of the loop of `run_benchmark`. -/
theorem Program.Accounted.round (accounted : program.Accounted mappingSize strategy)
    {step : Program ⊕ Program} (went : program.round platform surroundings p = .ok step) :
    Sum.elim (Program.Accounted mappingSize strategy) (Program.Accounted mappingSize strategy)
      step := by
  have begun : program.beginRun.Accounted mappingSize strategy :=
    ⟨accounted.counts, accounted.mapping, accounted.follows⟩
  obtain ⟨⟨allocated, middle⟩, batch, went⟩ := BoundedLoop.bind_eq_ok.mp went
  have filled := begun.runAllocations batch
  dsimp only at went
  split at went
  · rw [← Except.ok.inj went]
    exact filled
  · obtain ⟨freed, freeing, went⟩ := BoundedLoop.bind_eq_ok.mp went
    obtain ⟨expected, _, freeing⟩ := BoundedLoop.bind_eq_ok.mp freeing
    obtain ⟨emptied, down, freeing⟩ := BoundedLoop.bind_eq_ok.mp freeing
    have drawn : { middle with draws := middle.draws + 1 }.Accounted mappingSize strategy :=
      ⟨filled.counts, filled.mapping, filled.follows⟩
    have left := drawn.runDeallocationsDownTo down
    rw [← Except.ok.inj went, ← Except.ok.inj freeing]
    exact ⟨left.counts, left.mapping, left.follows⟩

/-- The loop of `run_benchmark`. -/
theorem Program.accounted_of_run {start : Program} {fuel : Nat}
    (went : BoundedLoop.run .timeout (Program.round platform surroundings p) fuel
      (start.init platform p) = .ok after) :
    after.Accounted (platform.pageSize * mappingPages) p.strategy := by
  have begun : (start.init platform p).Accounted (platform.pageSize * mappingPages) p.strategy :=
    ⟨rfl, rfl, rfl⟩
  exact BoundedLoop.run_rule (Program.Accounted (platform.pageSize * mappingPages) p.strategy)
    (fun _ _ accounted went => accounted.round went) begun went

end

/-! ### The first batch -/

section

variable {surroundings : Surroundings} {p : Parameters} {start program : Program}

/-- No size above the mean and the jitter is asked for. -/
theorem expectedSize_le {draws next : Nat} {expected : Int}
    (drawn : expectedSize surroundings p draws = .ok (expected, next)) :
    expected ≤ p.mean + p.jitter := by
  unfold expectedSize at drawn
  by_cases jitters : 0 < p.jitter
  · have divisor : (p.jitter : Int) * 2 ≠ 0 := by omega
    have offset : (surroundings.rand draws : Int).tmod (p.jitter * 2) < p.jitter * 2 :=
      Int.tmod_lt_of_pos _ (by omega)
    simp only [jitters, if_true, remainder, divisor, if_false, bind, Except.bind] at drawn
    obtain ⟨rfl, _⟩ := Prod.mk.inj (Except.ok.inj drawn)
    omega
  · rw [if_neg jitters] at drawn
    obtain ⟨rfl, _⟩ := Prod.mk.inj (Except.ok.inj drawn)
    omega

/-- On an empty heap `tso_alloc` returns an address if the mapping has room for the block. -/
theorem Kernel.Models.tsoAlloc_of_empty {task : TaskState platform} (models : kernel.Models task)
    (nothing : task.regions = []) {environment : Environment}
    (grants : environment.Grants platform) (copied : environment.copyToUser = 0) {size : Nat}
    (fits : platform.headerSize + size < platform.modulus)
    (roomy : platform.headerSize + size ≤ platform.initialSize) :
    ∃ address after, TsoAlloc.tsoAlloc platform (callRounds platform) environment size kernel =
      .ok (address, after) ∧ address ≠ 0 := by
  obtain ⟨outcome, returned, realizes, _⟩ :=
    models.alloc_realizes grants fits (task.heapFor grants).length_lt_callRounds
  have answer : outcome.answer =
      ((task.heapFor grants).alloc task.strategy environment size).2 := realizes.answer
  have none : (task.heapFor grants).regions = [] := (task.regions_heapFor grants).trans nothing
  have chosen := (task.heapFor grants).choose_of_empty none task.strategy
    (platform.headerSize + size)
  rw [if_pos roomy] at chosen
  refine ⟨outcome.answer.delivered.getD 0, outcome.kernel, ?_, ?_⟩
  · unfold TsoAlloc.tsoAlloc
    rw [returned]
    rfl
  · rw [answer, Heap.alloc_of_some chosen]
    simp only [copied, if_true, Option.getD_some]
    have := platform.headerSize_pos
    omega

/-- The first iteration of `run_allocations` on an empty heap allocates a block. -/
theorem Program.Tracks.allocOne_of_empty {task : TaskState platform} (tracks : program.Tracks task)
    (nothing : task.regions = []) (serves : surroundings.Serves platform)
    (fits : platform.headerSize + platform.initialSize < platform.modulus)
    (roomy : platform.headerSize + (p.mean + p.jitter) ≤ platform.initialSize)
    (short : program.benchmark.allocsSize < maxTotalAllocs) :
    ∃ after, ∃ next : TaskState platform,
      program.allocOne platform surroundings p = .ok (true, after) ∧
        program.Continues after next ∧
          after.benchmark.allocsSize = program.benchmark.allocsSize + 1 := by
  obtain ⟨allocated, after, next, iterated, continues, size⟩ :=
    tracks.allocOne (p := p) serves.grants serves.copied fits short
  obtain ⟨expected, draws, drawn, wanted⟩ :=
    expectedSize_nonneg surroundings p (program.draws + 1)
  have asked := expectedSize_le drawn
  have bytes := tracks.bytes
  rw [nothing, List.map_nil, List.sum_nil] at bytes
  obtain ⟨wish, taken⟩ : ∃ wish : Nat, (if program.benchmark.freeSpace < expected then
      program.benchmark.freeSpace else expected) = wish :=
    Int.eq_ofNat_of_zero_le (by split <;> omega)
  have small : platform.headerSize + wish ≤ platform.initialSize := by
    split at taken <;> omega
  obtain ⟨address, later, returned, valid⟩ := tracks.models.tsoAlloc_of_empty nothing serves.grants
    serves.copied (by omega : platform.headerSize + wish < platform.modulus) small
  rw [Program.allocOne_eq short drawn taken (by omega) returned, if_neg valid] at iterated
  obtain ⟨rfl, rfl⟩ := Prod.mk.inj (Except.ok.inj iterated)
  refine ⟨_, next, ?_, continues, size⟩
  rw [Program.allocOne_eq short drawn taken (by omega) returned, if_neg valid]

/-- The state behind a draw of `rand`. -/
def Program.drawn (program : Program) : Program := { program with draws := program.draws + 1 }

/-- A batch asks for as many blocks as a value of `rand` says, below the limit. -/
theorem runAllocations_eq {limit : Nat} (limited : (if (p.maxAllocs : Int) <
    maxTotalAllocs - program.benchmark.allocsSize then (p.maxAllocs : Int)
      else maxTotalAllocs - program.benchmark.allocsSize) = limit) :
    runAllocations platform surroundings p program =
      if limit = 0 then .error .divisionByZero
      else if surroundings.rand program.draws % limit = 0 then .ok (false, program.drawn)
      else program.drawn.allocUpTo platform surroundings p
        (surroundings.rand program.draws % limit) := by
  have remains : (surroundings.rand program.draws : Int).tmod limit =
      (surroundings.rand program.draws % limit : Nat) := rfl
  unfold runAllocations
  simp only [limited, remainder, remains, bind, Except.bind]
  by_cases zero : limit = 0
  · rw [if_pos zero, if_pos (Int.natCast_eq_zero.mpr zero)]
  rw [if_neg zero, if_neg (mt Int.natCast_eq_zero.mp zero)]
  by_cases none : surroundings.rand program.draws % limit = 0
  · rw [if_pos none]
    exact if_pos (Int.natCast_eq_zero.mpr none)
  · rw [if_neg none]
    exact if_neg (mt Int.natCast_eq_zero.mp none)

/-- While no block is held, a value of `rand` decides how many blocks a batch asks for. -/
theorem runAllocations_of_no_entries (nothing : program.benchmark.allocsSize = 0)
    (some : 0 < p.maxAllocs) (limit : p.maxAllocs < maxTotalAllocs) :
    runAllocations platform surroundings p program =
      if surroundings.rand program.draws % p.maxAllocs = 0 then .ok (false, program.drawn)
      else program.drawn.allocUpTo platform surroundings p
        (surroundings.rand program.draws % p.maxAllocs) := by
  have limited : (if (p.maxAllocs : Int) < maxTotalAllocs - program.benchmark.allocsSize then
      (p.maxAllocs : Int) else maxTotalAllocs - program.benchmark.allocsSize) = p.maxAllocs :=
    if_pos (by omega)
  exact (runAllocations_eq limited).trans (if_neg (Nat.pos_iff_ne_zero.mp some))

/-- A first batch that asks for a block gets one. -/
theorem Surroundings.Serves.firstBatchAllocates (serves : surroundings.Serves platform)
    (empty : start.kernel.EmptyHeap platform)
    (fits : platform.headerSize + platform.initialSize < platform.modulus)
    (roomy : platform.headerSize + (p.mean + p.jitter) ≤ platform.initialSize)
    (some : 0 < p.maxAllocs) (limit : p.maxAllocs < maxTotalAllocs)
    (drawn : surroundings.rand 0 % p.maxAllocs ≠ 0) :
    surroundings.FirstBatchAllocates platform p start := by
  obtain ⟨count, batch⟩ := Nat.exists_eq_succ_of_ne_zero drawn
  have below := Nat.mod_lt (surroundings.rand 0) some
  have begun : (start.init platform p).Sound platform := Program.sound_init empty p
  have ready : (start.init platform p).beginRun.drawn.Sound platform :=
    begun.congr rfl rfl rfl rfl rfl
  have none : (start.init platform p).beginRun.drawn.benchmark.allocsSize = 0 := rfl
  obtain ⟨task, tracks⟩ := ready.tracks
  have nothing : task.regions = [] := by
    have entries := tracks.entries
    rw [Benchmark.entries, none, Shuffle.entries_zero, List.perm_nil,
      List.map_eq_nil_iff] at entries
    exact entries
  obtain ⟨middle, next, iterated, continues, one⟩ :=
    tracks.allocOne_of_empty (p := p) nothing serves fits roomy (by omega)
  obtain ⟨allocated, after, looped, _, grown, _⟩ :=
    (ready.continues continues (by omega)).allocUpTo (p := p) serves fits
      (show middle.benchmark.allocsSize + count ≤ maxTotalAllocs by omega)
  refine ⟨allocated, after, ?_, by omega⟩
  refine (runAllocations_of_no_entries rfl some limit).trans ((if_neg drawn).trans ?_)
  have draws : (start.init platform p).beginRun.draws = 0 := rfl
  rw [draws, batch]
  simp only [Program.allocUpTo, iterated, bind, Except.bind, if_true]
  exact looped

/-- A first batch that asks for no block makes the first round divide by zero. -/
theorem Program.round_of_no_batch (some : 0 < p.maxAllocs) (limit : p.maxAllocs < maxTotalAllocs)
    (deallocates : p.deallocateAfterFail = true) (drawn : surroundings.rand 0 % p.maxAllocs = 0) :
    (start.init platform p).round platform surroundings p = .error .divisionByZero := by
  have more : ¬ (start.init platform p).beginRun.drawn.benchmark.maxDeallocs = 0 := by
    show ¬ (p.maxAllocs : Int) = 0
    omega
  have batch : runAllocations platform surroundings p (start.init platform p).beginRun =
      .ok (false, (start.init platform p).beginRun.drawn) :=
    (runAllocations_of_no_entries rfl some limit).trans (if_pos drawn)
  unfold Program.round
  rw [batch]
  simp only [bind, Except.bind, deallocates, more, Bool.not_false, Bool.not_true, decide_false,
    Bool.or_false, Bool.and_false, Bool.false_eq_true, if_false]
  rfl

end

/-! ### One benchmark of the program -/

/-- The result names the benchmark that it is of. -/
structure Result.Describes (result : Result) (p : Parameters) (description : String) : Prop where
  description : result.description = description
  maxAllocs : result.maxAllocs = p.maxAllocs
  mean : result.mean = p.mean
  jitter : result.jitter = p.jitter
  deallocateAfterFail : result.deallocateAfterFail = p.deallocateAfterFail

/-- The result agrees with the kernel: the strategy is in force, the blocks that were allocated and
not freed are the live ones, and their bytes and the free ones are all the bytes of the mapping. -/
structure Result.Truthful (platform : Platform) (strategy : AllocationStrategy) (result : Result)
    (kernel : Kernel) : Prop where
  follows : kernel.Follows strategy
  totalBytes : result.totalBytes = platform.initialSize
  live : ∃ task : TaskState platform, kernel.Models task ∧
    result.allocsNumber = result.deallocsNumber + task.regions.length ∧
      result.freeBytes + (task.regions.map Region.size).sum = result.totalBytes

theorem Program.Sound.emptyHeap {program : Program} (sound : program.Sound platform)
    (nothing : program.benchmark.allocsSize = 0) : program.kernel.EmptyHeap platform := by
  obtain ⟨task, models, entries, _⟩ := sound.tracks
  rw [Benchmark.entries, nothing, Shuffle.entries_zero, List.perm_nil,
    List.map_eq_nil_iff] at entries
  exact models.emptyHeap entries

theorem Platform.mapping_eq (platform : Platform) :
    (platform.pageSize * mappingPages : Int) = platform.initialSize := by
  unfold mappingPages Platform.initialSize
  omega

theorem describes_resultOf (p : Parameters) {description : String}
    (short : description.length ≤ 255) (benchmark : Benchmark) :
    (resultOf p description benchmark).Describes p description where
  description := by
    unfold resultOf
    rw [List.take_of_length_le (by rwa [String.length_toList]), String.ofList_toList]
  maxAllocs := rfl
  mean := rfl
  jitter := rfl
  deallocateAfterFail := rfl

theorem truthful_resultOf {program : Program} {strategy : AllocationStrategy}
    (sound : program.Sound platform)
    (accounted : program.Accounted (platform.pageSize * mappingPages) strategy) (p : Parameters)
    (description : String) :
    (resultOf p description program.benchmark).Truthful platform strategy program.kernel where
  follows := accounted.follows
  totalBytes := accounted.mapping.trans (platform.mapping_eq)
  live := by
    obtain ⟨task, models, entries, bytes⟩ := sound.tracks
    have held : task.regions.length = program.benchmark.allocsSize := by
      have same := entries.length_eq
      rwa [List.length_map, Benchmark.entries, Shuffle.length_entries] at same
    refine ⟨task, models, ?_, ?_⟩
    · rw [held]
      exact accounted.counts
    · exact bytes.trans (accounted.mapping.trans platform.mapping_eq).symm

/-- The benchmark of the program draws what decides its first batch, has room for its first block,
and comes to an end. -/
structure Parameters.Runs (platform : Platform) (firstRand : Nat) (p : Parameters) : Prop where
  some : 0 < p.maxAllocs
  limit : p.maxAllocs < maxTotalAllocs
  drawn : firstRand % p.maxAllocs ≠ 0
  roomy : platform.headerSize + (p.mean + p.jitter) ≤ platform.initialSize
  scales : p.ScalesBy (4 / 5)

/-- Rounds that are enough for the loop of a benchmark. -/
def Parameters.enough (p : Parameters) : Nat := (p.maxAllocs + 1) * maxTotalAllocs + 1

/-- The loop of a benchmark ends, with books that are those of the kernel. -/
theorem Parameters.Runs.loop {surroundings : Surroundings} {p : Parameters} {start : Program}
    (runs : p.Runs platform (surroundings.rand 0)) (empty : start.kernel.EmptyHeap platform)
    (serves : surroundings.Serves platform)
    (fits : platform.headerSize + platform.initialSize < platform.modulus) :
    ∃ left, BoundedLoop.run .timeout (Program.round platform surroundings p) p.enough
        (start.init platform p) = .ok left ∧ left.Sound platform ∧
      left.Accounted (platform.pageSize * mappingPages) p.strategy := by
  have first : surroundings.FirstBatchAllocates platform p start :=
    serves.firstBatchAllocates empty fits runs.roomy runs.some runs.limit runs.drawn
  obtain ⟨left, ended⟩ := run_ends empty serves fits first runs.scales
  obtain ⟨progress, went, sound⟩ := rounds_sound empty serves fits first p.enough
  refine ⟨left, ended, ?_, Program.accounted_of_run ended⟩
  have same : (Except.ok progress).bind (Sum.elim (fun _ => .error Fault.timeout) .ok) =
      .ok left := by
    rw [← went, ← BoundedLoop.run_eq_rounds]
    exact ended
  cases progress with
  | inl running => cases same
  | inr found =>
    obtain rfl := Except.ok.inj same
    exact sound

/-- When the loop of a benchmark ends and all blocks are freed, a result has been saved. -/
theorem Suite.runBenchmark_eq (suite : Suite) {outside : SuiteSurroundings} {fuel : Nat}
    {p : Parameters} {description : String} {index : Nat} {left final : Program}
    (next : suite.currentResult + 1 = index) (inside : index < resultsSize)
    (ended : BoundedLoop.run .timeout (Program.round platform (outside.benchmark index) p) fuel
      (suite.program.init platform p) = .ok left)
    (freed : runFullDeallocation platform left = .ok final) :
    suite.runBenchmark platform outside fuel p description = .ok {
      program := final
      results := Function.update suite.results index
        (some (resultOf p description left.benchmark))
      currentResult := index
      saves := (resultOf p description left.benchmark, left.kernel) :: suite.saves } := by
  have bounds : (0 : Int) ≤ index ∧ (index : Int) < resultsSize := by omega
  unfold runBenchmark
  simp only [next, Int.toNat_natCast, ended, saveResult, bounds, and_self, if_true, bind,
    Except.bind, freed]

/-- A benchmark of the program ends, saves a result that agrees with the kernel, and leaves an empty
heap. -/
theorem Suite.runBenchmark_ok {outside : SuiteSurroundings} {suite : Suite} {p : Parameters}
    {description : String} {index : Nat} (runs : p.Runs platform outside.firstRand)
    (empty : suite.program.kernel.EmptyHeap platform)
    (serves : (outside.benchmark index).Serves platform)
    (fits : platform.headerSize + platform.initialSize < platform.modulus)
    (short : description.length ≤ 255) (next : suite.currentResult + 1 = index)
    (inside : index < resultsSize) :
    ∃ after result kernel,
      suite.runBenchmark platform outside p.enough p description = .ok after ∧
        after.program.kernel.EmptyHeap platform ∧ after.currentResult = index ∧
          after.results = Function.update suite.results index (some result) ∧
            after.saves = (result, kernel) :: suite.saves ∧ result.Describes p description ∧
              result.Truthful platform p.strategy kernel := by
  rw [← outside.rand_zero index] at runs
  obtain ⟨left, ended, sound, accounted⟩ :=
    @Parameters.Runs.loop platform (outside.benchmark index) _ _ runs empty serves fits
  obtain ⟨final, freed, finalSound, size, _⟩ :=
    Program.Sound.runDeallocationsDownTo sound (le_refl 0)
  exact ⟨_, _, left.kernel, suite.runBenchmark_eq next inside ended freed,
    finalSound.emptyHeap (by omega), rfl, rfl, rfl, describes_resultOf p short _,
    truthful_resultOf sound accounted p description⟩

/-! ### The whole program -/

/-- The benchmarks of `run_strategies_benchmarks`. -/
def strategyExperiments (mean jitter : Nat) (ordered : jitter ≤ mean) (p : Parameters)
    (description : String) : List (Parameters × String) :=
  let p := { p with mean, jitter, jitter_le_mean := ordered }
  [({ p with strategy := .worstFit }, addToDescription description "WORST FIT STRATEGY"),
    ({ p with strategy := .bestFit }, addToDescription description "BEST FIT STRATEGY"),
    ({ p with strategy := .firstFit }, addToDescription description "FIRST FIT STRATEGY")]

/-- The benchmarks of `run_all_benchmarks`. -/
def chunkExperiments (mean : Nat) (p : Parameters) (description : String) :
    List (Parameters × String) :=
  strategyExperiments mean (mean / 10) (Nat.div_le_self _ _) p
      (addToDescription description "SMALL FRAGMENTATION") ++
    (strategyExperiments mean (mean / 5) (Nat.div_le_self _ _) p
        (addToDescription description "MEDIUM FRAGMENTATION") ++
      (strategyExperiments mean (mean / 2) (Nat.div_le_self _ _) p
          (addToDescription description "HIGH FRAGMENTATION") ++
        strategyExperiments mean mean le_rfl p
          (addToDescription description "VERY HIGH FRAGMENTATION")))

/-- The benchmarks of `main`. -/
def mainExperiments : List (Parameters × String) :=
  chunkExperiments 128 Suite.mainParameters (addToDescription "" "MEDIUM CHUNKS") ++
    chunkExperiments 512 Suite.mainParameters (addToDescription "" "BIG CHUNKS")

/-- Benchmarks one after another. -/
def Suite.runAll (platform : Platform) (outside : SuiteSurroundings) (fuel : Nat)
    (experiments : List (Parameters × String)) (suite : Suite) : Except Fault Suite :=
  experiments.foldlM (fun suite experiment =>
    suite.runBenchmark platform outside fuel experiment.1 experiment.2) suite

section

variable {outside : SuiteSurroundings} {fuel : Nat}

theorem Suite.runAll_append (front back : List (Parameters × String)) (suite : Suite) :
    suite.runAll platform outside fuel (front ++ back) =
      suite.runAll platform outside fuel front >>= fun suite =>
        suite.runAll platform outside fuel back :=
  List.foldlM_append

theorem Suite.runStrategiesBenchmarks_eq (mean jitter : Nat) (ordered : jitter ≤ mean)
    (p : Parameters) (description : String) (suite : Suite) :
    suite.runStrategiesBenchmarks platform outside fuel mean jitter ordered p description =
      suite.runAll platform outside fuel
        (strategyExperiments mean jitter ordered p description) := by
  unfold runStrategiesBenchmarks runAll strategyExperiments
  simp only [List.foldlM_cons, List.foldlM_nil, bind_pure]

theorem Suite.runAllBenchmarks_eq (mean : Nat) (p : Parameters) (description : String)
    (suite : Suite) :
    suite.runAllBenchmarks platform outside fuel mean p description =
      suite.runAll platform outside fuel (chunkExperiments mean p description) := by
  unfold runAllBenchmarks chunkExperiments
  simp only [runAll_append, runStrategiesBenchmarks_eq]

theorem Suite.main_eq (suite : Suite) :
    suite.main platform outside fuel = suite.runAll platform outside fuel mainExperiments := by
  unfold main mainExperiments
  simp only [runAll_append, runAllBenchmarks_eq]

/-- What the benchmarks of one chunk size have in common: they differ in the jitter, the strategy
and the description. -/
structure Planned (p : Parameters) (mean length : Nat) (experiment : Parameters × String) :
    Prop where
  maxAllocs : experiment.1.maxAllocs = p.maxAllocs
  deallocateAfterFail : experiment.1.deallocateAfterFail = p.deallocateAfterFail
  deallocFalldown : experiment.1.deallocFalldown = p.deallocFalldown
  mean : experiment.1.mean = mean
  length : experiment.2.length ≤ length

theorem planned_of_mem_strategyExperiments {mean jitter : Nat} {ordered : jitter ≤ mean}
    {p : Parameters} {description : String} {experiment : Parameters × String}
    (member : experiment ∈ strategyExperiments mean jitter ordered p description) :
    Planned p mean (description.length + 19) experiment := by
  have longer (str : String) (short : str.length ≤ 18) :
      (addToDescription description str).length ≤ description.length + 19 := by
    unfold addToDescription
    rw [String.length_append, String.length_append]
    have blank : " ".length = 1 := by decide
    omega
  unfold strategyExperiments at member
  simp only [List.mem_cons, List.not_mem_nil, or_false] at member
  rcases member with rfl | rfl | rfl
  · exact ⟨rfl, rfl, rfl, rfl, longer _ (by decide)⟩
  · exact ⟨rfl, rfl, rfl, rfl, longer _ (by decide)⟩
  · exact ⟨rfl, rfl, rfl, rfl, longer _ (by decide)⟩

theorem planned_of_mem_chunkExperiments {mean : Nat} {p : Parameters} {description : String}
    {experiment : Parameters × String}
    (member : experiment ∈ chunkExperiments mean p description) :
    Planned p mean (description.length + 43) experiment := by
  have longer {jitter : Nat} {ordered : jitter ≤ mean} (str : String) (short : str.length ≤ 23)
      (here : experiment ∈
        strategyExperiments mean jitter ordered p (addToDescription description str)) :
      Planned p mean (description.length + 43) experiment := by
    have planned := planned_of_mem_strategyExperiments here
    refine ⟨planned.maxAllocs, planned.deallocateAfterFail, planned.deallocFalldown, planned.mean,
      planned.length.trans ?_⟩
    unfold addToDescription
    rw [String.length_append, String.length_append]
    have blank : " ".length = 1 := by decide
    omega
  unfold chunkExperiments at member
  simp only [List.mem_append] at member
  rcases member with here | here | here | here
  · exact longer _ (by decide) here
  · exact longer _ (by decide) here
  · exact longer _ (by decide) here
  · exact longer _ (by decide) here

theorem planned_of_mem_mainExperiments {experiment : Parameters × String}
    (member : experiment ∈ mainExperiments) :
    ∃ mean ≤ 512, Planned Suite.mainParameters mean 255 experiment := by
  rcases List.mem_append.mp member with here | here
  · have planned := planned_of_mem_chunkExperiments here
    exact ⟨128, by decide, planned.maxAllocs, planned.deallocateAfterFail,
      planned.deallocFalldown, planned.mean, planned.length.trans (by decide)⟩
  · have planned := planned_of_mem_chunkExperiments here
    exact ⟨512, le_rfl, planned.maxAllocs, planned.deallocateAfterFail,
      planned.deallocFalldown, planned.mean, planned.length.trans (by decide)⟩

/-- Every benchmark of `main` runs when the first value of `rand` asks for a block. -/
theorem runs_of_mem_mainExperiments {firstRand : Nat} (drawn : firstRand % 120 ≠ 0)
    (roomy : platform.headerSize + 1024 ≤ platform.initialSize)
    {experiment : Parameters × String} (member : experiment ∈ mainExperiments) :
    experiment.1.Runs platform firstRand := by
  obtain ⟨mean, small, planned⟩ := planned_of_mem_mainExperiments member
  have allocs : experiment.1.maxAllocs = 120 := planned.maxAllocs
  have slots : 120 < maxTotalAllocs := by decide
  have jitter := experiment.1.jitter_le_mean
  have mean := planned.mean
  refine ⟨by omega, by omega, allocs ▸ drawn, by omega, by norm_num, by norm_num, ?_⟩
  intro maxDeallocs
  rw [planned.deallocFalldown]
  rfl

/-- The suite after some benchmarks: the heap is empty, and each of them has left its result. -/
structure Suite.Done (platform : Platform) (done : List (Parameters × String)) (suite : Suite) :
    Prop where
  emptyHeap : suite.program.kernel.EmptyHeap platform
  current : suite.currentResult + 1 = done.length
  saved : ∀ index p description, done[index]? = some (p, description) →
    ∃ result kernel, suite.results index = some result ∧ (result, kernel) ∈ suite.saves ∧
      result.Describes p description ∧ result.Truthful platform p.strategy kernel

/-- One more benchmark leaves its result behind the others. -/
theorem Suite.Done.runBenchmark {done : List (Parameters × String)} {suite : Suite}
    (isDone : suite.Done platform done) {p : Parameters} {description : String}
    (runs : p.Runs platform outside.firstRand)
    (serves : ∀ index, (outside.benchmark index).Serves platform)
    (fits : platform.headerSize + platform.initialSize < platform.modulus)
    (short : description.length ≤ 255) (inside : done.length < resultsSize) :
    ∃ after, suite.runBenchmark platform outside p.enough p description = .ok after ∧
      after.Done platform (done ++ [(p, description)]) := by
  obtain ⟨after, result, kernel, ran, empty, current, results, saves, describes, truthful⟩ :=
    Suite.runBenchmark_ok runs isDone.emptyHeap (serves done.length) fits short isDone.current
      inside
  refine ⟨after, ran, empty, ?_, ?_⟩
  · rw [current, List.length_append, List.length_singleton]
    rfl
  · intro index q label found
    rw [results, saves]
    rcases Nat.lt_trichotomy index done.length with before | rfl | behind
    · rw [List.getElem?_append_left before] at found
      obtain ⟨old, state, stored, member, rest⟩ := isDone.saved index q label found
      refine ⟨old, state, ?_, List.mem_cons_of_mem _ member, rest⟩
      rw [Function.update_of_ne (Nat.ne_of_lt before)]
      exact stored
    · rw [List.getElem?_concat_length] at found
      obtain ⟨rfl, rfl⟩ := Prod.mk.inj (Option.some.inj found)
      exact ⟨result, kernel, Function.update_self _ _ _, List.mem_cons_self, describes, truthful⟩
    · rw [List.getElem?_eq_none (by simp; omega)] at found
      cases found

/-- All benchmarks of a list run. -/
theorem Suite.Done.runAll {done rest : List (Parameters × String)} {suite : Suite}
    (isDone : suite.Done platform done)
    (runs : ∀ experiment ∈ rest, experiment.1.Runs platform outside.firstRand)
    (enough : ∀ experiment ∈ rest, experiment.1.enough = fuel)
    (short : ∀ experiment ∈ rest, experiment.2.length ≤ 255)
    (serves : ∀ index, (outside.benchmark index).Serves platform)
    (fits : platform.headerSize + platform.initialSize < platform.modulus)
    (inside : done.length + rest.length ≤ resultsSize) :
    ∃ final, suite.runAll platform outside fuel rest = .ok final ∧
      final.Done platform (done ++ rest) := by
  induction rest generalizing done suite with
  | nil =>
    rw [List.append_nil]
    exact ⟨suite, rfl, isDone⟩
  | cons experiment rest inductionHypothesis =>
    obtain ⟨p, description⟩ := experiment
    rw [List.length_cons] at inside
    obtain ⟨after, ran, afterDone⟩ := isDone.runBenchmark (runs _ List.mem_cons_self) serves fits
      (short _ List.mem_cons_self) (by omega)
    rw [enough _ List.mem_cons_self] at ran
    obtain ⟨final, finished, finalDone⟩ := inductionHypothesis afterDone
      (fun experiment member => runs experiment (List.mem_cons_of_mem _ member))
      (fun experiment member => enough experiment (List.mem_cons_of_mem _ member))
      (fun experiment member => short experiment (List.mem_cons_of_mem _ member))
      (by rw [List.length_append, List.length_singleton]; omega)
    rw [List.append_assoc, List.singleton_append] at finalDone
    refine ⟨final, ?_, finalDone⟩
    unfold Suite.runAll at finished ⊢
    rw [List.foldlM_cons]
    dsimp only
    rw [ran]
    exact finished

/-- When the first value of `rand` asks for no block, the first benchmark divides by zero. -/
theorem Suite.main_of_no_batch (suite : Suite) (drawn : outside.firstRand % 120 = 0) (fuel : Nat) :
    suite.main platform outside (fuel + 1) = .error .divisionByZero := by
  have some : mainExperiments ≠ [] := by
    unfold mainExperiments chunkExperiments strategyExperiments
    exact List.cons_ne_nil _ _
  obtain ⟨⟨p, description⟩, rest, split⟩ := List.exists_cons_of_ne_nil some
  obtain ⟨mean, _, planned⟩ := planned_of_mem_mainExperiments
    (split ▸ List.mem_cons_self : (p, description) ∈ mainExperiments)
  have allocs : p.maxAllocs = 120 := planned.maxAllocs
  have slots : 120 < maxTotalAllocs := by decide
  have round : (suite.program.init platform p).round platform
      (outside.benchmark (suite.currentResult + 1).toNat) p = .error .divisionByZero := by
    have none : (outside.benchmark (suite.currentResult + 1).toNat).rand 0 % p.maxAllocs = 0 := by
      rw [allocs]
      exact (congrArg (· % 120) (outside.rand_zero _)).trans drawn
    exact Program.round_of_no_batch (by omega) (by omega) planned.deallocateAfterFail none
  have failed : suite.runBenchmark platform outside (fuel + 1) p description =
      .error .divisionByZero := by
    unfold runBenchmark
    dsimp only
    rw [BoundedLoop.run_succ, round]
    rfl
  rw [main_eq, split]
  unfold runAll
  rw [List.foldlM_cons]
  dsimp only
  rw [failed]
  rfl

end

/-- The whole program, on any heap that is empty at the start, for slots that exist: when the first
value of `rand` after `srand` is no multiple of 120, all 24 benchmarks end, each on an empty heap
and within the array of results, and each leaves a result that names it and agrees with the kernel
as it was when the result was saved. When that value is a multiple of 120, the first benchmark
divides by zero. -/
theorem finishes_of_main {outside : SuiteSurroundings} {suite : Suite}
    (empty : suite.program.kernel.EmptyHeap platform) (begins : suite.currentResult = -1)
    (grants : outside.environment.Grants platform) (copied : outside.environment.copyToUser = 0)
    (fits : platform.headerSize + platform.initialSize < platform.modulus)
    (roomy : platform.headerSize + 1024 ≤ platform.initialSize) :
    (outside.firstRand % 120 ≠ 0 →
      ∃ final, suite.main platform outside ((120 + 1) * maxTotalAllocs + 1) = .ok final ∧
        final.program.kernel.EmptyHeap platform ∧ final.currentResult = 23 ∧
          ∀ index p description, mainExperiments[index]? = some (p, description) →
            ∃ result kernel, final.results index = some result ∧ (result, kernel) ∈ final.saves ∧
              result.Describes p description ∧ result.Truthful platform p.strategy kernel) ∧
      (outside.firstRand % 120 = 0 →
        ∀ fuel, suite.main platform outside (fuel + 1) = .error .divisionByZero) := by
  refine ⟨fun drawn => ?_, fun drawn fuel => suite.main_of_no_batch drawn fuel⟩
  have start : suite.Done platform [] := by
    refine ⟨empty, by rw [begins]; rfl, fun index p description found => ?_⟩
    rw [List.getElem?_nil] at found
    cases found
  have length : mainExperiments.length = 24 := rfl
  have serves (index : Nat) : (outside.benchmark index).Serves platform := ⟨grants, copied⟩
  have enough : ∀ experiment ∈ mainExperiments,
      experiment.1.enough = (120 + 1) * maxTotalAllocs + 1 := by
    intro experiment member
    obtain ⟨mean, _, planned⟩ := planned_of_mem_mainExperiments member
    unfold Parameters.enough
    rw [planned.maxAllocs]
    rfl
  have short : ∀ experiment ∈ mainExperiments, experiment.2.length ≤ 255 := by
    intro experiment member
    obtain ⟨mean, _, planned⟩ := planned_of_mem_mainExperiments member
    exact planned.length
  obtain ⟨final, ran, isDone⟩ := start.runAll
    (fun experiment member => runs_of_mem_mainExperiments drawn roomy member) enough short serves
    fits (by rw [length]; decide)
  have current := isDone.current
  rw [List.nil_append, length] at current
  rw [List.nil_append] at isDone
  refine ⟨final, (Suite.main_eq suite).trans ran, isDone.emptyHeap, by omega, isDone.saved⟩

/-- Batches of one block. -/
def SuiteSurroundings.oneBlock : SuiteSurroundings where
  environment := .secondPage
  firstRand := 1
  rand := fun _ _ => 1
  rand_zero := fun _ => rfl
  slot := fun _ _ _ => 0
  slot_lt := fun _ _ size => (Nat.eq_zero_or_pos size).elim (fun none => Or.inr ⟨rfl, none⟩) Or.inl

/-- The whole program before `main`. -/
def Suite.boot : Suite where
  program := Program.boot
  results := fun _ => none
  currentResult := -1
  saves := []

theorem finishes_sample : ∃ final,
    Suite.boot.main Platform.i386 .oneBlock ((120 + 1) * maxTotalAllocs + 1) = .ok final ∧
      final.program.kernel.EmptyHeap Platform.i386 ∧ final.currentResult = 23 := by
  have grants : SuiteSurroundings.oneBlock.environment.Grants Platform.i386 := by decide
  have empty : Suite.boot.program.kernel.EmptyHeap Platform.i386 := Program.boot_emptyHeap _
  obtain ⟨final, ended, empty, current, _⟩ :=
    (finishes_of_main empty rfl grants rfl (by decide) (by decide)).1 (by decide)
  exact ⟨final, ended, empty, current⟩

end TsoAlloc
