/-
This file proves that the loop of the benchmark ends, whatever `rand` returns. A round that
goes on scales the limit of deallocations down, so in the end the limit is zero; from then on
a round frees nothing, and it goes on only after it has allocated, so the array fills up. The
measure has the limit before the unused slots of the array. No round divides by zero on the
way: a batch of deallocations leaves a block, so the next one finds one.
-/

import Mathlib.Data.Rat.Floor
import TsoAlloc.BenchmarkBooks

namespace TsoAlloc

/-- `(int)` of a rational, which cuts off the fraction. -/
def truncate (value : ℚ) : Int := value.num.tdiv value.den

/-- `dealloc_falldown` is a rational from 0 up to 1, exclusive, and products with it are exact until
they become an `int`. -/
structure Parameters.ScalesBy (p : Parameters) (factor : ℚ) : Prop where
  nonneg : 0 ≤ factor
  lt_one : factor < 1
  product : ∀ maxDeallocs : Int, p.deallocFalldown maxDeallocs = truncate (maxDeallocs * factor)

/-- Some round of the benchmark calls `run_deallocations` in this state: its batch has led here, and
its test has not left the loop. -/
def Program.CallsDeallocations (platform : Platform) (surroundings : Surroundings) (p : Parameters)
    (start middle : Program) : Prop :=
  ∃ count before allocResult,
    BoundedLoop.rounds (Program.round platform surroundings p) count (start.init platform p) =
        .ok (.inl before) ∧
      runAllocations platform surroundings p before.beginRun = .ok (allocResult, middle) ∧
        ¬ (allocResult = false ∧
          (middle.benchmark.maxDeallocs = 0 ∨ p.deallocateAfterFail = false))

/-- What the rounds of the loop lower: the limit of deallocations, and then the number of unused
slots of the array. -/
def Program.measure (program : Program) : Nat :=
  program.benchmark.maxDeallocs.toNat * maxTotalAllocs +
    (maxTotalAllocs - program.benchmark.allocsSize)

/-! ### The limit of deallocations -/

theorem truncate_eq_floor {value : ℚ} (nonneg : 0 ≤ value) : truncate value = ⌊value⌋ := by
  rw [truncate, Int.tdiv_eq_ediv_of_nonneg (Rat.num_nonneg.mpr nonneg), Rat.floor_def']

variable {platform : Platform} {surroundings : Surroundings} {p : Parameters}
  {program next : Program}

/-- A limit that is not negative stays so, and a positive one gets smaller. -/
theorem Parameters.ScalesBy.falls {factor : ℚ} (scales : p.ScalesBy factor) {maxDeallocs : Int}
    (nonneg : 0 ≤ maxDeallocs) :
    0 ≤ p.deallocFalldown maxDeallocs ∧
      (0 < maxDeallocs → p.deallocFalldown maxDeallocs < maxDeallocs) := by
  have limit : (0 : ℚ) ≤ maxDeallocs := Int.cast_nonneg nonneg
  have product : (0 : ℚ) ≤ maxDeallocs * factor := mul_nonneg limit scales.nonneg
  rw [scales.product, truncate_eq_floor product]
  refine ⟨Int.floor_nonneg.mpr product, fun positive => Int.floor_lt.mpr ?_⟩
  exact mul_lt_of_lt_one_right (Int.cast_pos.mpr positive) scales.lt_one

theorem Parameters.ScalesBy.zero {factor : ℚ} (scales : p.ScalesBy factor) :
    p.deallocFalldown 0 = 0 := by
  rw [scales.product, Int.cast_zero, zero_mul]
  rfl

/-- A round that goes on lowers the measure. -/
theorem Parameters.Advances.measure_lt (advances : p.Advances program next) {factor : ℚ}
    (scales : p.ScalesBy factor) (nonneg : 0 ≤ program.benchmark.maxDeallocs)
    (short : program.benchmark.allocsSize < maxTotalAllocs) : next.measure < program.measure := by
  obtain ⟨stays, falls⟩ := scales.falls nonneg
  rcases Int.lt_or_eq_of_le nonneg with positive | none
  · have lower : next.benchmark.maxDeallocs.toNat + 1 ≤ program.benchmark.maxDeallocs.toNat := by
      have := falls positive
      rw [advances.maxDeallocs]
      omega
    have rows := Nat.mul_le_mul_right maxTotalAllocs lower
    rw [Nat.add_mul, Nat.one_mul] at rows
    unfold Program.measure
    omega
  · have grown := advances.grows none.symm
    have same : next.benchmark.maxDeallocs = program.benchmark.maxDeallocs := by
      rw [advances.maxDeallocs, ← none, scales.zero]
    unfold Program.measure
    rw [same]
    omega

/-! ### The loop -/

section

variable {start : Program}

/-- Between rounds the program holds a block, an unused slot and a limit that is not negative. -/
structure Program.Limited (platform : Platform) (program : Program) : Prop
    extends program.Running platform where
  nonneg : 0 ≤ program.benchmark.maxDeallocs

/-- A round in which a block is held after `run_allocations` ends the loop or lowers the measure. -/
theorem Program.Sound.round_descends (sound : program.Sound platform)
    (serves : surroundings.Serves platform)
    (fits : platform.headerSize + platform.initialSize < platform.modulus)
    (some : 0 < p.maxAllocs) {factor : ℚ} (scales : p.ScalesBy factor)
    (nonneg : 0 ≤ program.benchmark.maxDeallocs)
    (short : program.benchmark.allocsSize < maxTotalAllocs)
    (held : ∀ allocated after, TsoAlloc.runAllocations platform surroundings p program.beginRun =
      .ok (allocated, after) → 0 < after.benchmark.allocsSize) :
    ∃ step, program.round platform surroundings p = .ok step ∧
      Sum.elim (fun next => next.Limited platform ∧ next.measure < program.measure)
        (Program.Sound platform) step := by
  obtain ⟨step, went, ends⟩ := sound.round_advances serves fits some short held
  refine ⟨step, went, ?_⟩
  cases step with
  | inr left => exact ends
  | inl next =>
    obtain ⟨running, advances⟩ := ends
    refine ⟨⟨running, ?_⟩, advances.measure_lt scales nonneg short⟩
    rw [advances.maxDeallocs]
    exact (scales.falls nonneg).1

/-- The loop ends within as many rounds as the measure has values. -/
theorem run_ends (empty : start.kernel.EmptyHeap platform) (serves : surroundings.Serves platform)
    (fits : platform.headerSize + platform.initialSize < platform.modulus)
    (first : surroundings.FirstBatchAllocates platform p start) {factor : ℚ}
    (scales : p.ScalesBy factor) :
    ∃ left, BoundedLoop.run .timeout (Program.round platform surroundings p)
      ((p.maxAllocs + 1) * maxTotalAllocs + 1) (start.init platform p) = .ok left := by
  have begun : (start.init platform p).Sound platform := Program.sound_init empty p
  have some := first.maxAllocs_pos
  have slots : 0 < maxTotalAllocs := Nat.succ_pos _
  have begins : (start.init platform p).measure = (p.maxAllocs + 1) * maxTotalAllocs := by
    rw [Nat.add_mul, Nat.one_mul]
    rfl
  obtain ⟨step, went, ends⟩ := begun.round_descends serves fits some scales
    (Int.natCast_nonneg p.maxAllocs) slots first.held
  rw [BoundedLoop.run_succ, went]
  cases step with
  | inr left => exact ⟨left, rfl⟩
  | inl next =>
    obtain ⟨limited, lower⟩ := ends
    rw [begins] at lower
    obtain ⟨left, returned, _⟩ := BoundedLoop.run_variant (Program.Limited platform)
      Program.measure (fun vars limited => limited.toSound.round_descends serves fits some scales
        limited.nonneg limited.short fun _ _ => limited.held_of_runAllocations serves fits some)
      limited lower
    exact ⟨left, returned⟩

/-- Every call of `run_deallocations` finds a block. -/
theorem held_of_callsDeallocations (empty : start.kernel.EmptyHeap platform)
    (serves : surroundings.Serves platform)
    (fits : platform.headerSize + platform.initialSize < platform.modulus)
    (first : surroundings.FirstBatchAllocates platform p start) {middle : Program}
    (calls : start.CallsDeallocations platform surroundings p middle) :
    0 < middle.benchmark.allocsSize := by
  obtain ⟨count, before, allocResult, reached, batch, _⟩ := calls
  cases count with
  | zero =>
    obtain rfl := Sum.inl.inj (Except.ok.inj reached)
    exact first.held _ _ batch
  | succ count =>
    obtain ⟨progress, went, running⟩ := rounds_running empty serves fits first count
    obtain rfl := Except.ok.inj (went.symm.trans reached)
    exact running.held_of_runAllocations serves fits first.maxAllocs_pos batch

/-- The loop of every benchmark that starts on an empty heap and whose first batch allocates a block
ends, after a number of rounds that does not depend on the values of `rand`; and every call of
`run_deallocations` on the way finds a block, so its division is defined. -/
theorem ends_of_runBenchmark (empty : start.kernel.EmptyHeap platform)
    (serves : surroundings.Serves platform)
    (fits : platform.headerSize + platform.initialSize < platform.modulus)
    (first : surroundings.FirstBatchAllocates platform p start) {factor : ℚ}
    (scales : p.ScalesBy factor) :
    (∃ left, BoundedLoop.run .timeout (Program.round platform surroundings p)
        ((p.maxAllocs + 1) * maxTotalAllocs + 1) (start.init platform p) = .ok left) ∧
      ∀ middle, start.CallsDeallocations platform surroundings p middle →
        0 < middle.benchmark.allocsSize :=
  ⟨run_ends empty serves fits first scales, fun _ calls =>
    held_of_callsDeallocations empty serves fits first calls⟩

end

/-- The parameters of the benchmark of big chunks with small fragmentation, for `WORST_FIT`. -/
def Parameters.bigChunks : Parameters where
  deallocateAfterFail := true
  jitter := 51
  mean := 512
  deallocFalldown := fun maxDeallocs => truncate (maxDeallocs * (4 / 5))
  maxAllocs := 120
  strategy := .worstFit
  jitter_le_mean := by decide

/-- With batches of two blocks the loop ends. -/
theorem ends_sample : ∃ left,
    BoundedLoop.run .timeout (Program.round Platform.i386 .twoBlocks .bigChunks)
        ((120 + 1) * maxTotalAllocs + 1) (Program.boot.init Platform.i386 .bigChunks) =
      .ok left := by
  have first : Surroundings.twoBlocks.FirstBatchAllocates Platform.i386 .bigChunks Program.boot :=
    .of_evaluates (by decide +kernel)
  have scales : Parameters.bigChunks.ScalesBy (4 / 5) :=
    ⟨by norm_num, by norm_num, fun _ => rfl⟩
  exact (ends_of_runBenchmark (Program.boot_emptyHeap _) Surroundings.twoBlocks_serves (by decide)
    first scales).1

end TsoAlloc
