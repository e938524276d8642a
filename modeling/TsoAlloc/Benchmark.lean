/-
This file translates the benchmark of `test6.c`, which fills and empties the heap at random
and keeps books of its own: an array of the blocks it holds, shuffled while it grows, and a
count of the bytes that no block takes. It reaches the kernel through `tso_alloc` and
`tso_free` alone.

A run draws values from outside, one after another: those of `rand`, and the slots of the
shuffle, whose choice in the source begins with a variable that was never set. An `int` and
a `long` are integers here. The text of descriptions, the clock, the floating-point results
and what is printed are left out, as nothing else depends on them; of `dealloc_falldown` only
the truncated product is used.
-/

import TsoAlloc.Client
import TsoAlloc.Library.Shuffle

namespace TsoAlloc

/-! ### Data -/

/-- `MAX_TOTAL_ALLOCS` -/
def maxTotalAllocs : Nat := 12000

/-- `MAPPING_SIZE`, in pages -/
def mappingPages : Nat := 8

/-- `struct alloc` -/
structure Alloc where
  address : Nat
  size : Int
deriving DecidableEq, Repr

/-- `struct parameters`, as `run_all_benchmarks` builds them. `deallocFalldown` is the product
of an `int` and the factor `dealloc_falldown`, as an `int`. -/
structure Parameters where
  deallocateAfterFail : Bool
  jitter : Nat
  mean : Nat
  deallocFalldown : Int → Int
  maxAllocs : Nat
  strategy : AllocationStrategy
  jitter_le_mean : jitter ≤ mean

/-- `struct benchmark` -/
structure Benchmark where
  mappingSize : Int
  freeSpace : Int
  allocs : Nat → Alloc
  allocsSize : Nat
  maxDeallocs : Int
  allocsNumber : Nat
  deallocsNumber : Nat
  runs : Nat

/-- What a run gets from outside: the answers of the rest of the kernel to an allocation, the values
of `rand`, and the slots that the shuffle picks for a number of entries, each by how many values
were drawn before. -/
structure Surroundings where
  environment : Environment
  rand : Nat → Nat
  slot : Nat → Nat → Nat
  slot_lt : ∀ draws size, slot draws size < size ∨ slot draws size = 0 ∧ size = 0

/-- The program and the kernel. It counts the values drawn and, for the statements about them, lists
the states at the ends of the iterations of this benchmark, the last one first. -/
structure Program where
  benchmark : Benchmark
  kernel : Kernel
  draws : Nat
  checkpoints : List (Benchmark × Kernel)

/-- Why the program does not go on. -/
inductive Fault where
  | trap (trap : Trap)
  | outOfBounds
  | divisionByZero
  | timeout
deriving DecidableEq, Repr

/-- The entries of `allocs` in use. -/
def Benchmark.entries (benchmark : Benchmark) : List Alloc :=
  Shuffle.entries benchmark.allocs benchmark.allocsSize

/-- `allocs[slot]` -/
def Benchmark.read (benchmark : Benchmark) (slot : Int) : Except Fault Alloc :=
  if 0 ≤ slot ∧ slot < maxTotalAllocs then .ok (benchmark.allocs slot.toNat)
  else .error .outOfBounds

/-- `allocs[slot] = alloc` -/
def Benchmark.write (benchmark : Benchmark) (slot : Nat) (alloc : Alloc) :
    Except Fault Benchmark :=
  if slot < maxTotalAllocs then
    .ok { benchmark with allocs := Function.update benchmark.allocs slot alloc }
  else .error .outOfBounds

/-- `left % right` of C. -/
def remainder (left right : Int) : Except Fault Int :=
  if right = 0 then .error .divisionByZero else .ok (left.tmod right)

/-- The state is noted at the end of an iteration. -/
def Program.checkpoint (program : Program) : Program :=
  { program with checkpoints := (program.benchmark, program.kernel) :: program.checkpoints }

section

variable (platform : Platform) (surroundings : Surroundings)

/-- More rounds than a loop of the kernel over the regions of a mapping takes. -/
def callRounds : Nat := platform.initialSize + 1

/-! ### Allocations -/

/-- `expected_size`, and how many values were drawn after it. -/
def expectedSize (p : Parameters) (draws : Nat) : Except Fault (Int × Nat) :=
  if 0 < p.jitter then do
    let offset ← remainder (surroundings.rand draws) (p.jitter * 2)
    .ok (offset - p.jitter + p.mean, draws + 1)
  else .ok (p.mean, draws)

/-- The entry of the slot `place` moves behind the others, unless they are all in front. -/
def Benchmark.moveEntry (benchmark : Benchmark) (place : Nat) : Except Fault Benchmark :=
  if place ≠ benchmark.allocsSize then do
    let moved ← benchmark.read place
    benchmark.write benchmark.allocsSize moved
  else .ok benchmark

/-- One iteration of the loop of `run_allocations`. It reports whether the loop goes on. -/
def Program.allocOne (p : Parameters) (program : Program) : Except Fault (Bool × Program) := do
  let place := surroundings.slot program.draws program.benchmark.allocsSize
  let benchmark ← program.benchmark.moveEntry place
  let (expected, draws) ← expectedSize surroundings p (program.draws + 1)
  let size := if benchmark.freeSpace < expected then benchmark.freeSpace else expected
  let (address, kernel) ← (tsoAlloc platform (callRounds platform) surroundings.environment
    (size % platform.modulus).toNat program.kernel).mapError .trap
  if address = 0 then
    .ok (false, { program with benchmark, kernel, draws }.checkpoint)
  else do
    let benchmark ← benchmark.write place ⟨address, size⟩
    let benchmark := { benchmark with
      allocsSize := benchmark.allocsSize + 1
      freeSpace := benchmark.freeSpace - size
      allocsNumber := benchmark.allocsNumber + 1 }
    .ok (true, { program with benchmark, kernel, draws }.checkpoint)

/-- The loop of `run_allocations`, which leaves the function when an allocation fails. -/
def Program.allocUpTo (p : Parameters) : Nat → Program → Except Fault (Bool × Program)
  | 0, program => .ok (true, program)
  | count + 1, program => do
    let (allocated, program) ← program.allocOne platform surroundings p
    if allocated then allocUpTo p count program else .ok (false, program)

/-- `run_allocations` -/
def runAllocations (p : Parameters) (program : Program) : Except Fault (Bool × Program) := do
  let left : Int := maxTotalAllocs - program.benchmark.allocsSize
  let maxAllocs : Int := if p.maxAllocs < left then p.maxAllocs else left
  let upTo ← remainder (surroundings.rand program.draws) maxAllocs
  let program := { program with draws := program.draws + 1 }
  if upTo = 0 then .ok (false, program)
  else program.allocUpTo platform surroundings p upTo.toNat

/-! ### Deallocations -/

/-- One iteration of the loop of `run_deallocations_down_to`, or its end. -/
def Program.freeOne (downTo : Int) (program : Program) : Except Fault (Program ⊕ Program) :=
  let benchmark := program.benchmark
  if downTo < benchmark.allocsSize then do
    let oldAlloc ← benchmark.read (benchmark.allocsSize - 1)
    let (_, kernel) ← (tsoFree platform (callRounds platform) oldAlloc.address
      program.kernel).mapError .trap
    let benchmark := { benchmark with
      deallocsNumber := benchmark.deallocsNumber + 1
      freeSpace := benchmark.freeSpace + oldAlloc.size
      allocsSize := benchmark.allocsSize - 1 }
    .ok (.inl { program with benchmark, kernel }.checkpoint)
  else .ok (.inr program)

/-- `run_deallocations_down_to` -/
def runDeallocationsDownTo (downTo : Int) (program : Program) : Except Fault Program :=
  BoundedLoop.run .timeout (Program.freeOne platform downTo) (program.benchmark.allocsSize + 1)
    program

/-- `run_full_deallocation` -/
def runFullDeallocation (program : Program) : Except Fault Program :=
  runDeallocationsDownTo platform 0 program

/-- `run_deallocations` -/
def runDeallocations (p : Parameters) (program : Program) : Except Fault Program := do
  let size := program.benchmark.allocsSize
  let expectedDeallocs ← remainder (surroundings.rand program.draws) size
  let maxDeallocs := program.benchmark.maxDeallocs
  let downTo := size - if maxDeallocs < expectedDeallocs then maxDeallocs else expectedDeallocs
  let program ← runDeallocationsDownTo platform downTo { program with draws := program.draws + 1 }
  let benchmark := { program.benchmark with
    maxDeallocs := p.deallocFalldown program.benchmark.maxDeallocs }
  .ok { program with benchmark }

/-! ### The benchmark -/

/-- What `run_benchmark` does before its loop, with `init_benchmark`, which seeds `rand` anew and
switches the strategy. -/
def Program.init (p : Parameters) (program : Program) : Program where
  benchmark := { program.benchmark with
    mappingSize := platform.pageSize * mappingPages
    freeSpace := platform.pageSize * mappingPages
    maxDeallocs := p.maxAllocs
    allocsSize := 0
    allocsNumber := 0
    deallocsNumber := 0
    runs := 0 }
  kernel := (sysTsoMmSwitchStrategy p.strategy.value program.kernel).kernel
  draws := 0
  checkpoints := []

/-- `benchmark.runs++` -/
def Program.beginRun (program : Program) : Program :=
  { program with benchmark.runs := program.benchmark.runs + 1 }

/-- One round of the loop of `run_benchmark`. -/
def Program.round (p : Parameters) (program : Program) : Except Fault (Program ⊕ Program) := do
  let (allocResult, program) ← runAllocations platform surroundings p program.beginRun
  if !allocResult && (program.benchmark.maxDeallocs = 0 || !p.deallocateAfterFail) then
    .ok (.inr program)
  else do
    let program ← runDeallocations platform surroundings p program
    .ok (.inl program)

/-- `run_benchmark` -/
def runBenchmark (fuel : Nat) (p : Parameters) (program : Program) : Except Fault Program := do
  let program ← BoundedLoop.run .timeout (Program.round platform surroundings p) fuel
    (program.init platform p)
  runFullDeallocation platform program

end

end TsoAlloc
