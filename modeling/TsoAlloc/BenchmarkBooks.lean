/-
This file proves that the books of the benchmark are those of the kernel. The array holds
every live block once, with its address and its size; and what the benchmark counts as free
is what the kernel counts as free and the headers. Every loop of the program keeps this, none
of its array accesses and divisions goes wrong once a block is held, and when the array is
empty again so is the heap.
-/

import TsoAlloc.BenchmarkSteps
import TsoAlloc.Tampering

namespace TsoAlloc

section

variable (platform : Platform)

/-- The books of the benchmark are those of the kernel: the array holds the regions of the list,
each once, and the count of free bytes is that of the record without the headers. -/
structure Books (benchmark : Benchmark) (kernel : Kernel) (mm : TsoMmMapping)
    (regions : List Region) : Prop where
  mapped : kernel.currentMm = some mm
  listed : Listed platform kernel.memory mm.firstRegion regions
  entries : (regions.map (Region.entry platform)).Perm benchmark.entries
  bound : benchmark.allocsSize ≤ maxTotalAllocs
  free : benchmark.freeSpace = mm.free + platform.headerSize * benchmark.allocsSize
  freeSpace_nonneg : 0 ≤ benchmark.freeSpace

/-- After every iteration of the benchmark the books are those of the kernel. -/
def Program.BooksMatch (program : Program) : Prop :=
  ∀ checkpoint ∈ program.checkpoints, ∃ mm regions,
    Books platform checkpoint.1 checkpoint.2 mm regions

/-- The task has no mapping yet, or one that holds no region and whose bytes are all free. -/
def Kernel.EmptyHeap (kernel : Kernel) : Prop :=
  ∀ mm, kernel.currentMm = some mm → mm.Granted platform ∧ mm.firstRegion = 0 ∧ mm.free = mm.size

/-- Between iterations the array holds the blocks of a task, and after every iteration so far the
books were those of the kernel. -/
structure Program.Sound (program : Program) : Prop where
  tracks : ∃ task : TaskState platform, program.Tracks task
  bound : program.benchmark.allocsSize ≤ maxTotalAllocs
  matched : program.BooksMatch platform

/-- The rest of the kernel serves the allocations of the program, whose variable on the stack can
be written. -/
structure Surroundings.Serves (surroundings : Surroundings) : Prop where
  grants : surroundings.environment.Grants platform
  copied : surroundings.environment.copyToUser = 0

/-- The first call of `run_allocations` allocates a block. -/
def Surroundings.FirstBatchAllocates (surroundings : Surroundings) (p : Parameters)
    (start : Program) : Prop :=
  ∃ allocated after,
    runAllocations platform surroundings p (start.init platform p).beginRun =
        .ok (allocated, after) ∧ 0 < after.benchmark.allocsSize

end

variable {platform : Platform} {kernel : Kernel}

/-! ### Books -/

/-- A program that tracks a task with a mapping has the books of the kernel. -/
theorem Program.Tracks.books {program : Program} {task : TaskState platform}
    (tracks : program.Tracks task) (mapped : task.heap ≠ none)
    (bound : program.benchmark.allocsSize ≤ maxTotalAllocs) :
    ∃ mm regions, Books platform program.benchmark program.kernel mm regions := by
  obtain ⟨models, entries, bytes⟩ := tracks
  have payloads := task.sum_size_le
  obtain ⟨strategy, _ | heap⟩ := task
  · exact absurd rfl mapped
  obtain ⟨mm, recorded, represents⟩ := models.2
  have held : heap.regions.length = program.benchmark.allocsSize := by
    have same := entries.length_eq
    rwa [List.length_map, Benchmark.entries, Shuffle.length_entries] at same
  have used := heap.used_le
  have free := represents.free
  unfold Heap.freeBytes at free
  simp only [heap.used_eq, held, TaskState.regions] at used free bytes payloads
  refine ⟨mm, heap.regions, recorded, represents.listed, entries, bound, ?_, by omega⟩
  rw [free]
  omega

theorem Kernel.EmptyHeap.models (empty : kernel.EmptyHeap platform)
    {strategy : AllocationStrategy} (follows : kernel.Follows strategy) :
    ∃ heap, kernel.Models (⟨strategy, heap⟩ : TaskState platform) ∧
      TaskState.regions (⟨strategy, heap⟩ : TaskState platform) = [] := by
  cases mapped : kernel.currentMm with
  | none => exact ⟨none, ⟨follows, mapped⟩, rfl⟩
  | some mm =>
    obtain ⟨granted, nothing, free⟩ := empty mm mapped
    have fits := granted.fits
    rw [granted.size] at fits free
    refine ⟨some (Heap.empty mm.start granted.start_pos fits), ⟨follows, mm, mapped, ?_⟩, rfl⟩
    exact ⟨⟨rfl, granted.size, listed_nil.mpr nothing⟩, free⟩

theorem Kernel.Models.emptyHeap {task : TaskState platform} (models : kernel.Models task)
    (nothing : task.regions = []) : kernel.EmptyHeap platform := by
  intro mm mapped
  obtain ⟨heap, same, represents⟩ := models.represents mapped
  rw [nothing] at same
  have first := represents.listed
  rw [← same] at first
  have fits := heap.fits
  refine ⟨⟨represents.start ▸ heap.start_pos, represents.size, ?_⟩, listed_nil.mp first, ?_⟩
  · rw [represents.start, represents.size]
    exact fits
  · rw [represents.free_of_empty same.symm, represents.size]

/-! ### Loops -/

section

variable {surroundings : Surroundings} {p : Parameters} {program : Program}

/-- An iteration notes a state in which the books are those of the kernel. -/
theorem Program.Sound.continues (sound : program.Sound platform) {after : Program}
    {task : TaskState platform} (continues : program.Continues after task)
    (bound : after.benchmark.allocsSize ≤ maxTotalAllocs) : after.Sound platform where
  tracks := ⟨task, continues.tracks⟩
  bound := bound
  matched := by
    intro checkpoint member
    rw [continues.noted] at member
    rcases List.mem_cons.mp member with rfl | member
    · exact continues.tracks.books continues.mapped bound
    · exact sound.matched checkpoint member

theorem Program.Sound.congr (sound : program.Sound platform) {other : Program}
    (kernels : other.kernel = program.kernel)
    (entries : other.benchmark.entries = program.benchmark.entries)
    (size : other.benchmark.allocsSize = program.benchmark.allocsSize)
    (free : other.benchmark.freeSpace = program.benchmark.freeSpace)
    (noted : other.checkpoints = program.checkpoints) : other.Sound platform where
  tracks := by
    obtain ⟨task, models, held, bytes⟩ := sound.tracks
    exact ⟨task, kernels ▸ models, entries ▸ held, free ▸ bytes⟩
  bound := size ▸ sound.bound
  matched := by
    intro checkpoint member
    exact sound.matched checkpoint (noted ▸ member)

/-- The loop of `run_allocations` as long as there are slots for all its blocks. -/
theorem Program.Sound.allocUpTo (sound : program.Sound platform)
    (serves : surroundings.Serves platform)
    (fits : platform.headerSize + platform.initialSize < platform.modulus) {count : Nat}
    (enough : program.benchmark.allocsSize + count ≤ maxTotalAllocs) :
    ∃ allocated after,
      program.allocUpTo platform surroundings p count = .ok (allocated, after) ∧
        after.Sound platform ∧ program.benchmark.allocsSize ≤ after.benchmark.allocsSize ∧
          after.benchmark.allocsSize ≤ program.benchmark.allocsSize + count ∧
            after.benchmark.maxDeallocs = program.benchmark.maxDeallocs ∧
              (allocated = true →
                after.benchmark.allocsSize = program.benchmark.allocsSize + count) := by
  induction count generalizing program with
  | zero => exact ⟨true, program, rfl, sound, le_rfl, le_rfl, rfl, fun _ => rfl⟩
  | succ count inductionHypothesis =>
    obtain ⟨task, tracks⟩ := sound.tracks
    obtain ⟨allocated, middle, next, iterated, continues, size⟩ :=
      tracks.allocOne (p := p) serves.grants serves.copied fits (by omega)
    have grown : allocated.toNat ≤ 1 := Bool.toNat_le allocated
    have middleSound := sound.continues continues (by omega)
    simp only [Program.allocUpTo, iterated, bind, Except.bind]
    cases allocated with
    | false =>
      exact ⟨false, middle, rfl, middleSound, by omega, by omega, continues.maxDeallocs,
        fun done => absurd done Bool.false_ne_true⟩
    | true =>
      have one : true.toNat = 1 := rfl
      obtain ⟨allocated, after, looped, afterSound, low, high, limit, all⟩ :=
        inductionHypothesis middleSound (by omega)
      refine ⟨allocated, after, looped, afterSound, by omega, by omega,
        limit.trans continues.maxDeallocs, fun done => ?_⟩
      have := all done
      omega

/-- `run_allocations` leaves a slot of the array unused. -/
theorem Program.Sound.runAllocations (sound : program.Sound platform)
    (serves : surroundings.Serves platform)
    (fits : platform.headerSize + platform.initialSize < platform.modulus)
    (some : 0 < p.maxAllocs) (short : program.benchmark.allocsSize < maxTotalAllocs) :
    ∃ allocated after,
      runAllocations platform surroundings p program = .ok (allocated, after) ∧
        after.Sound platform ∧ program.benchmark.allocsSize ≤ after.benchmark.allocsSize ∧
          after.benchmark.allocsSize < maxTotalAllocs ∧
            after.benchmark.maxDeallocs = program.benchmark.maxDeallocs ∧
              (allocated = true →
                program.benchmark.allocsSize < after.benchmark.allocsSize) := by
  obtain ⟨limit, limited⟩ : ∃ limit : Nat, (if (p.maxAllocs : Int) <
      maxTotalAllocs - program.benchmark.allocsSize then (p.maxAllocs : Int)
        else maxTotalAllocs - program.benchmark.allocsSize) = limit :=
    Int.eq_ofNat_of_zero_le (by split <;> omega)
  have positive : (limit : Int) ≠ 0 := by
    split at limited <;> omega
  have inside : program.benchmark.allocsSize + limit ≤ maxTotalAllocs := by
    split at limited <;> omega
  have remains : (surroundings.rand program.draws : Int).tmod limit =
      (surroundings.rand program.draws % limit : Nat) := rfl
  have below := Nat.mod_lt (surroundings.rand program.draws) (by omega : 0 < limit)
  have drawn : { program with draws := program.draws + 1 }.Sound platform :=
    sound.congr rfl rfl rfl rfl rfl
  have enough : program.benchmark.allocsSize + surroundings.rand program.draws % limit ≤
      maxTotalAllocs := by omega
  unfold TsoAlloc.runAllocations
  simp only [limited, remainder, positive, if_false, remains, bind, Except.bind,
    Int.toNat_natCast]
  split
  · exact ⟨false, _, rfl, drawn, le_rfl, short, rfl, fun done => absurd done Bool.false_ne_true⟩
  · rename_i some
    obtain ⟨allocated, after, looped, afterSound, low, high, kept, all⟩ :=
      drawn.allocUpTo (p := p) serves fits enough
    dsimp only at high all
    refine ⟨allocated, after, looped, afterSound, low, by omega, kept, fun done => ?_⟩
    have := all done
    omega

/-- `run_deallocations_down_to` ends with so many entries, or with all of them if there are no
more. -/
theorem Program.Sound.runDeallocationsDownTo (sound : program.Sound platform) {downTo : Int}
    (proper : 0 ≤ downTo) :
    ∃ after, runDeallocationsDownTo platform downTo program = .ok after ∧ after.Sound platform ∧
      (after.benchmark.allocsSize : Int) = min ↑program.benchmark.allocsSize downTo ∧
        after.benchmark.maxDeallocs = program.benchmark.maxDeallocs := by
  refine BoundedLoop.run_variant (fun vars : Program => vars.Sound platform ∧
      min (vars.benchmark.allocsSize : Int) downTo = min ↑program.benchmark.allocsSize downTo ∧
        vars.benchmark.maxDeallocs = program.benchmark.maxDeallocs)
    (fun vars => vars.benchmark.allocsSize) ?_ ⟨sound, rfl, rfl⟩ (Nat.lt_succ_self _)
  rintro vars ⟨varsSound, same, kept⟩
  by_cases more : downTo < vars.benchmark.allocsSize
  · obtain ⟨size, held⟩ : ∃ size, vars.benchmark.allocsSize = size + 1 :=
      Nat.exists_eq_succ_of_ne_zero (by omega)
    obtain ⟨task, tracks⟩ := varsSound.tracks
    have bound := varsSound.bound
    obtain ⟨after, next, iterated, continues, left⟩ := tracks.freeOne more held bound
    refine ⟨_, iterated, ⟨varsSound.continues continues (by omega), ?_,
      continues.maxDeallocs.trans kept⟩, by omega⟩
    rw [← same]
    omega
  · refine ⟨.inr vars, ?_, varsSound, ?_, kept⟩
    · unfold Program.freeOne
      rw [if_neg more]
    · rw [← same]
      omega

/-- `run_deallocations` leaves a block when there is one, and all of them when it may take none. -/
theorem Program.Sound.runDeallocations (sound : program.Sound platform)
    (held : 0 < program.benchmark.allocsSize) :
    ∃ after, runDeallocations platform surroundings p program = .ok after ∧
      after.Sound platform ∧ 0 < after.benchmark.allocsSize ∧
        after.benchmark.allocsSize ≤ program.benchmark.allocsSize ∧
          after.benchmark.maxDeallocs = p.deallocFalldown program.benchmark.maxDeallocs ∧
            (program.benchmark.maxDeallocs = 0 →
              after.benchmark.allocsSize = program.benchmark.allocsSize) := by
  have divisor : (program.benchmark.allocsSize : Int) ≠ 0 := by omega
  have fewer := Nat.mod_lt (surroundings.rand program.draws) held
  have remains : (surroundings.rand program.draws : Int).tmod program.benchmark.allocsSize =
      (surroundings.rand program.draws % program.benchmark.allocsSize : Nat) := rfl
  have drawn : { program with draws := program.draws + 1 }.Sound platform :=
    sound.congr rfl rfl rfl rfl rfl
  unfold TsoAlloc.runDeallocations
  simp only [remainder, divisor, if_false, remains, bind, Except.bind]
  generalize chosen : (program.benchmark.allocsSize : Int) - (if program.benchmark.maxDeallocs <
      (surroundings.rand program.draws % program.benchmark.allocsSize : Nat) then
        program.benchmark.maxDeallocs
      else (surroundings.rand program.draws % program.benchmark.allocsSize : Nat)) = downTo
  have positive : 0 < downTo := by
    split at chosen <;> omega
  obtain ⟨after, looped, afterSound, size, kept⟩ := drawn.runDeallocationsDownTo positive.le
  rw [looped]
  dsimp only at size kept ⊢
  refine ⟨_, rfl, afterSound.congr rfl rfl rfl rfl rfl, ?_⟩
  dsimp only
  refine ⟨by omega, by omega, congrArg p.deallocFalldown kept, fun none => ?_⟩
  split at chosen <;> omega

/-! ### The benchmark -/

/-- Between rounds the program holds a block, and a slot of the array is unused. -/
structure Program.Running (platform : Platform) (program : Program) : Prop
    extends program.Sound platform where
  held : 0 < program.benchmark.allocsSize
  short : program.benchmark.allocsSize < maxTotalAllocs

/-- What a round does that is not the last one: the limit of deallocations falls, and a round that
may free nothing leaves more blocks. -/
structure Parameters.Advances (p : Parameters) (before after : Program) : Prop where
  maxDeallocs : after.benchmark.maxDeallocs = p.deallocFalldown before.benchmark.maxDeallocs
  grows : before.benchmark.maxDeallocs = 0 →
    before.benchmark.allocsSize < after.benchmark.allocsSize

/-- A round in which a block is held after `run_allocations` goes well, and goes on to the next one
only when it has advanced. -/
theorem Program.Sound.round_advances (sound : program.Sound platform)
    (serves : surroundings.Serves platform)
    (fits : platform.headerSize + platform.initialSize < platform.modulus)
    (some : 0 < p.maxAllocs) (short : program.benchmark.allocsSize < maxTotalAllocs)
    (held : ∀ allocated after, TsoAlloc.runAllocations platform surroundings p program.beginRun =
      .ok (allocated, after) → 0 < after.benchmark.allocsSize) :
    ∃ step, program.round platform surroundings p = .ok step ∧
      Sum.elim (fun next => next.Running platform ∧ p.Advances program next)
        (Program.Sound platform) step := by
  have begun : program.beginRun.Sound platform := sound.congr rfl rfl rfl rfl rfl
  obtain ⟨allocated, middle, batch, middleSound, low, middleShort, limit, more⟩ :=
    begun.runAllocations serves fits some short
  have begunLimit : program.beginRun.benchmark.maxDeallocs = program.benchmark.maxDeallocs := rfl
  have begunSize : program.beginRun.benchmark.allocsSize = program.benchmark.allocsSize := rfl
  unfold Program.round
  simp only [batch, bind, Except.bind]
  split
  · exact ⟨_, rfl, middleSound⟩
  · rename_i goesOn
    obtain ⟨after, freed, afterSound, left, fewer, falls, kept⟩ :=
      middleSound.runDeallocations (p := p) (held _ _ batch)
    rw [freed]
    refine ⟨_, rfl, ⟨afterSound, left, by omega⟩, by rw [falls, limit, begunLimit], fun none => ?_⟩
    have spent : middle.benchmark.maxDeallocs = 0 := by rw [limit, begunLimit, none]
    -- The loop goes on without a limit left, so the batch has succeeded.
    have done : allocated = true := by
      by_contra failed
      rw [Bool.not_eq_true] at failed
      simp [failed, spent] at goesOn
    have grown := more done
    rw [kept spent]
    omega

theorem Program.Sound.round (sound : program.Sound platform)
    (serves : surroundings.Serves platform)
    (fits : platform.headerSize + platform.initialSize < platform.modulus)
    (some : 0 < p.maxAllocs) (short : program.benchmark.allocsSize < maxTotalAllocs)
    (held : ∀ allocated after, TsoAlloc.runAllocations platform surroundings p program.beginRun =
      .ok (allocated, after) → 0 < after.benchmark.allocsSize) :
    ∃ step, program.round platform surroundings p = .ok step ∧
      Sum.elim (Program.Running platform) (Program.Sound platform) step := by
  obtain ⟨step, went, ends⟩ := sound.round_advances serves fits some short held
  refine ⟨step, went, ?_⟩
  cases step with
  | inl next => exact ends.1
  | inr left => exact ends

/-- Between rounds, `run_allocations` returns with a block held. -/
theorem Program.Running.held_of_runAllocations (running : program.Running platform)
    (serves : surroundings.Serves platform)
    (fits : platform.headerSize + platform.initialSize < platform.modulus)
    (some : 0 < p.maxAllocs) {allocated : Bool} {after : Program}
    (returned : TsoAlloc.runAllocations platform surroundings p program.beginRun =
      .ok (allocated, after)) : 0 < after.benchmark.allocsSize := by
  have begun : program.beginRun.Sound platform := running.toSound.congr rfl rfl rfl rfl rfl
  obtain ⟨_, _, batch, _, grown, _⟩ := begun.runAllocations serves fits some running.short
  obtain ⟨rfl, rfl⟩ := Prod.mk.inj (Except.ok.inj (batch.symm.trans returned))
  exact lt_of_lt_of_le running.held grown

/-- Every later round goes well. -/
theorem Program.Running.round (running : program.Running platform)
    (serves : surroundings.Serves platform)
    (fits : platform.headerSize + platform.initialSize < platform.modulus)
    (some : 0 < p.maxAllocs) :
    ∃ step, program.round platform surroundings p = .ok step ∧
      Sum.elim (Program.Running platform) (Program.Sound platform) step :=
  running.toSound.round serves fits some running.short fun _ _ returned =>
    running.held_of_runAllocations serves fits some returned

/-- The benchmark begins with an empty array and an empty heap. -/
theorem Program.sound_init {start : Program} (empty : start.kernel.EmptyHeap platform)
    (p : Parameters) : (start.init platform p).Sound platform where
  tracks := by
    obtain ⟨heap, models, nothing⟩ := @Kernel.EmptyHeap.models platform
      (start.init platform p).kernel empty p.strategy rfl
    refine ⟨⟨p.strategy, heap⟩, models, ?_, ?_⟩
    · rw [nothing]
      exact List.Perm.refl []
    · have pages : (platform.pageSize * mappingPages : Int) = platform.initialSize := by
        unfold mappingPages Platform.initialSize
        omega
      rw [nothing]
      exact (add_zero _).trans pages
  bound := Nat.zero_le _
  matched := fun checkpoint member => absurd member List.not_mem_nil

theorem runAllocations_of_maxAllocs_eq_zero (none : p.maxAllocs = 0)
    (short : program.benchmark.allocsSize < maxTotalAllocs) :
    runAllocations platform surroundings p program = .error .divisionByZero := by
  have limited : (if (p.maxAllocs : Int) < maxTotalAllocs - program.benchmark.allocsSize then
      (p.maxAllocs : Int) else maxTotalAllocs - program.benchmark.allocsSize) = 0 := by
    rw [if_pos (by omega), none, Int.natCast_zero]
  unfold runAllocations
  simp only [limited, remainder, if_true, bind, Except.bind]

theorem Surroundings.FirstBatchAllocates.maxAllocs_pos {start : Program}
    (first : surroundings.FirstBatchAllocates platform p start) : 0 < p.maxAllocs := by
  obtain ⟨allocated, after, returned, _⟩ := first
  by_contra none
  have slots : 0 < maxTotalAllocs := Nat.succ_pos _
  rw [runAllocations_of_maxAllocs_eq_zero (by omega) slots] at returned
  cases returned

theorem Surroundings.FirstBatchAllocates.held {start : Program}
    (first : surroundings.FirstBatchAllocates platform p start) (allocated : Bool) (after : Program)
    (returned : runAllocations platform surroundings p (start.init platform p).beginRun =
      .ok (allocated, after)) : 0 < after.benchmark.allocsSize := by
  obtain ⟨_, batch, batchReturned, held⟩ := first
  obtain ⟨rfl, rfl⟩ := Prod.mk.inj (Except.ok.inj (batchReturned.symm.trans returned))
  exact held

/-- Any number of rounds from the start but none goes well, and leaves a block when the loop goes
on. -/
theorem rounds_running {start : Program} (empty : start.kernel.EmptyHeap platform)
    (serves : surroundings.Serves platform)
    (fits : platform.headerSize + platform.initialSize < platform.modulus)
    (first : surroundings.FirstBatchAllocates platform p start) (count : Nat) :
    ∃ progress, BoundedLoop.rounds (Program.round platform surroundings p) (count + 1)
        (start.init platform p) = .ok progress ∧
      Sum.elim (Program.Running platform) (Program.Sound platform) progress := by
  have begun : (start.init platform p).Sound platform := Program.sound_init empty p
  have some := first.maxAllocs_pos
  have slots : 0 < maxTotalAllocs := Nat.succ_pos _
  obtain ⟨step, went, sound⟩ := begun.round serves fits some slots first.held
  rw [BoundedLoop.rounds_succ count went]
  cases step with
  | inr left => exact ⟨_, rfl, sound⟩
  | inl running =>
    exact BoundedLoop.rounds_rule (Program.Running platform)
      (fun vars running => running.round serves fits some) count sound

/-- Any number of rounds from the start goes well. -/
theorem rounds_sound {start : Program} (empty : start.kernel.EmptyHeap platform)
    (serves : surroundings.Serves platform)
    (fits : platform.headerSize + platform.initialSize < platform.modulus)
    (first : surroundings.FirstBatchAllocates platform p start) (count : Nat) :
    ∃ progress, BoundedLoop.rounds (Program.round platform surroundings p) count
        (start.init platform p) = .ok progress ∧
      Sum.elim (Program.Sound platform) (Program.Sound platform) progress := by
  cases count with
  | zero => exact ⟨_, rfl, Program.sound_init empty p⟩
  | succ count =>
    obtain ⟨progress, went, ends⟩ := rounds_running empty serves fits first count
    refine ⟨progress, went, ?_⟩
    cases progress with
    | inl still => exact ends.toSound
    | inr left => exact ends

/-- In every benchmark that starts on an empty heap and whose first batch allocates a block, after
every iteration of its loops the books are those of the kernel; none of its steps fails; and when
it ends, the heap is empty again. -/
theorem booksMatch_of_runBenchmark {start : Program} (empty : start.kernel.EmptyHeap platform)
    (serves : surroundings.Serves platform)
    (fits : platform.headerSize + platform.initialSize < platform.modulus)
    (first : surroundings.FirstBatchAllocates platform p start) (count : Nat) :
    (∃ progress, BoundedLoop.rounds (Program.round platform surroundings p) count
        (start.init platform p) = .ok progress ∧ (progress.elim id id).BooksMatch platform) ∧
      (runBenchmark platform surroundings count p start = .error .timeout ∨
        ∃ final, runBenchmark platform surroundings count p start = .ok final ∧
          final.BooksMatch platform ∧ final.benchmark.allocsSize = 0 ∧
            final.kernel.EmptyHeap platform) := by
  obtain ⟨progress, went, sound⟩ := rounds_sound empty serves fits first count
  cases progress with
  | inl running =>
    refine ⟨⟨_, went, sound.matched⟩, Or.inl ?_⟩
    unfold runBenchmark
    rw [BoundedLoop.run_eq_rounds, went]
    rfl
  | inr left =>
    obtain ⟨final, freed, finalSound, size, _⟩ :=
      Program.Sound.runDeallocationsDownTo sound (le_refl 0)
    have nothing : final.benchmark.allocsSize = 0 := by omega
    refine ⟨⟨_, went, sound.matched⟩, Or.inr ⟨final, ?_, finalSound.matched, nothing, ?_⟩⟩
    · unfold runBenchmark
      rw [BoundedLoop.run_eq_rounds, went]
      exact freed
    · obtain ⟨task, models, entries, _⟩ := finalSound.tracks
      rw [Benchmark.entries, nothing, Shuffle.entries_zero, List.perm_nil,
        List.map_eq_nil_iff] at entries
      exact models.emptyHeap entries

end

/-- Batches of two blocks, each put in the first slot. -/
def Surroundings.twoBlocks : Surroundings where
  environment := .secondPage
  rand := fun _ => 2
  slot := fun _ _ => 0
  slot_lt := fun _ size => (Nat.eq_zero_or_pos size).elim (fun none => Or.inr ⟨rfl, none⟩) Or.inl

/-- Blocks of 12000 bytes, up to three at a time, until one is refused. -/
def Parameters.large : Parameters where
  deallocateAfterFail := false
  jitter := 0
  mean := 12000
  deallocFalldown := fun maxDeallocs => (maxDeallocs * 4).tdiv 5
  maxAllocs := 3
  strategy := .worstFit
  jitter_le_mean := Nat.zero_le _

/-- The program before its first benchmark. -/
def Program.boot : Program where
  benchmark := ⟨0, 0, fun _ => ⟨0, 0⟩, 0, 0, 0, 0, 0⟩
  kernel := Kernel.boot fun _ => 0
  draws := 0
  checkpoints := []

theorem Program.boot_emptyHeap (platform : Platform) : Program.boot.kernel.EmptyHeap platform :=
  fun _ mapped => nomatch mapped

theorem Surroundings.twoBlocks_serves : Surroundings.twoBlocks.Serves Platform.i386 where
  grants := by decide
  copied := rfl

/-- Whether the first batch allocates a block is found by running it. -/
theorem Surroundings.FirstBatchAllocates.of_evaluates {platform : Platform}
    {surroundings : Surroundings} {p : Parameters} {start : Program}
    (evaluates : (runAllocations platform surroundings p
        (start.init platform p).beginRun).toOption.map
      (fun result => decide (0 < result.2.benchmark.allocsSize)) = some true) :
    surroundings.FirstBatchAllocates platform p start := by
  obtain ⟨⟨allocated, batch⟩, returned, held⟩ := exists_ok _ evaluates
  exact ⟨allocated, batch, returned, of_decide_eq_true held⟩

/-- Two blocks are allocated, a third one is refused, and both are freed. -/
theorem booksMatch_sample : ∃ final,
    runBenchmark Platform.i386 .twoBlocks 2 .large Program.boot = .ok final ∧
      final.checkpoints.length = 5 ∧ final.BooksMatch Platform.i386 ∧
        final.kernel.EmptyHeap Platform.i386 := by
  have first : Surroundings.twoBlocks.FirstBatchAllocates Platform.i386 .large Program.boot :=
    .of_evaluates (by decide +kernel)
  obtain ⟨final, ended, noted⟩ := exists_ok (fun final : Program => final.checkpoints.length)
    (show (runBenchmark Platform.i386 .twoBlocks 2 .large Program.boot).toOption.map _ = some 5 by
      decide +kernel)
  obtain ⟨_, out | ⟨other, otherEnded, books, _, left⟩⟩ :=
    booksMatch_of_runBenchmark (Program.boot_emptyHeap _) Surroundings.twoBlocks_serves (by decide)
      first 2
  · rw [ended] at out
    cases out
  · obtain rfl := Except.ok.inj (ended.symm.trans otherEnded)
    exact ⟨final, ended, noted, books, left⟩

end TsoAlloc
