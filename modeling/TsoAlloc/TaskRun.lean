/-
This file follows one task through any sequence of system calls. A run starts without a
mapping; its allocations ask for sizes that do not wrap, its frees come after the first
allocation, and its strategies are the three of the enumeration. Such a run refines a run
of an abstract task, which has a strategy and a heap and neither records nor bytes: every
call returns, with the answer of the heap, and leaves a record and a memory that represent
the heap. So what is never checked at run time holds throughout: the list ends, it is
sorted, its regions are disjoint and inside the mapping, and the counter is exact.
-/

import Mathlib.Data.Set.BooleanAlgebra
import Mathlib.Order.CompletePartialOrder
import TsoAlloc.Library.Transition
import TsoAlloc.Refinement

namespace TsoAlloc

open Extents Transition

section

variable (platform : Platform)

/-- `kmalloc` returns an object, and `vm_mmap` returns a range inside the address space that
does not begin at zero. -/
structure Environment.Grants (environment : Environment) : Prop where
  object : environment.kmalloc = true
  start_pos : 0 < environment.vmMmap
  fits : environment.vmMmap + platform.initialSize ≤ platform.modulus

/-- The mapping that the first allocation of a task creates. -/
def Environment.Grants.heap {platform : Platform} {environment : Environment}
    (grants : environment.Grants platform) : Heap platform :=
  Heap.empty environment.vmMmap grants.start_pos grants.fits

/-- The task has no mapping, or its record and its memory represent the heap. -/
def Kernel.Holds (kernel : Kernel) : Option (Heap platform) → Prop
  | none => kernel.currentMm = none
  | some heap => ∃ mm, kernel.currentMm = some mm ∧ Represents mm kernel.memory heap

/-- The record that a call works on: that of the task, or the one that it sets up. -/
def Kernel.Uses (kernel : Kernel) (environment : Environment) (mm : TsoMmMapping) : Prop :=
  kernel.currentMm = some mm ∨
    kernel.currentMm = none ∧ tsoMmInitialize platform environment = .ok mm

/-- The value of `current_strategy` is one of the three. -/
def Kernel.Follows (kernel : Kernel) (strategy : AllocationStrategy) : Prop :=
  kernel.currentStrategy = strategy.value

/-- A call a task may make: the request does not wrap, the mapping exists when something is
freed, and the strategy is one of the three. -/
def Call.Legal (kernel : Kernel) : Call → Prop
  | .alloc environment size =>
    environment.Grants platform ∧ platform.headerSize + size < platform.modulus
  | .free _ => kernel.currentMm ≠ none
  | .switchStrategy strategy => ∃ enumerator : AllocationStrategy, strategy = enumerator.value

end

/-- A call of a run with what its caller sees. -/
structure Event where
  call : Call
  answer : Answer
deriving DecidableEq, Repr

section

variable (platform : Platform)

/-- A call that returns. -/
def Step (before : Kernel) (event : Event) (after : Kernel) : Prop :=
  ∃ fuel outcome, invoke platform fuel before event.call = .ok outcome ∧
    outcome.answer = event.answer ∧ outcome.kernel = after

/-- A call that a task may make and that returns. -/
def LegalStep (before : Kernel) (event : Event) (after : Kernel) : Prop :=
  event.call.Legal platform before ∧ Step platform before event after

/-- A task before its first call: no mapping, and one of the three strategies in force. -/
def Kernel.Fresh (kernel : Kernel) : Prop :=
  kernel.currentMm = none ∧ ∃ strategy, kernel.Follows strategy

/-! ### The abstract task -/

/-- A task without records and bytes: the strategy in force and the heap, once there is one. -/
structure TaskState where
  strategy : AllocationStrategy
  heap : Option (Heap platform)

namespace TaskState

variable {platform}

/-- The live regions of a task. -/
def regions (task : TaskState platform) : List Region :=
  match task.heap with
  | none => []
  | some heap => heap.regions

@[simp]
theorem regions_some (strategy : AllocationStrategy) (heap : Heap platform) :
    (⟨strategy, some heap⟩ : TaskState platform).regions = heap.regions := rfl

theorem regions_getD (strategy : AllocationStrategy) (heap : Option (Heap platform))
    {environment : Environment} (grants : environment.Grants platform) :
    (heap.getD grants.heap).regions = (⟨strategy, heap⟩ : TaskState platform).regions := by
  cases heap <;> rfl

/-- A call on the abstract task. The first allocation creates the heap. -/
inductive Step : TaskState platform → Event → TaskState platform → Prop
  | alloc (strategy : AllocationStrategy) (heap : Option (Heap platform))
      (environment : Environment) (size : Nat) (grants : environment.Grants platform) :
      Step ⟨strategy, heap⟩
        ⟨.alloc environment size, ((heap.getD grants.heap).alloc strategy environment size).2⟩
        ⟨strategy, some ((heap.getD grants.heap).alloc strategy environment size).1⟩
  | free (strategy : AllocationStrategy) (heap : Heap platform) (addr : Nat) :
      Step ⟨strategy, some heap⟩ ⟨.free addr, (heap.free addr).2⟩
        ⟨strategy, some (heap.free addr).1⟩
  | switchStrategy (strategy next : AllocationStrategy) (heap : Option (Heap platform)) :
      Step ⟨strategy, heap⟩ ⟨.switchStrategy next.value, ⟨0, none⟩⟩ ⟨next, heap⟩

end TaskState

/-- The strategy in force is the task's, and the task has no mapping or represents the heap. -/
def Kernel.Models {platform : Platform} (kernel : Kernel) (task : TaskState platform) : Prop :=
  kernel.Follows task.strategy ∧ kernel.Holds platform task.heap

end

variable {platform : Platform} {kernel : Kernel} {fuel : Nat}

/-! ### More rounds change nothing -/

theorem tsoMmGetFit_stable (observed : Nat → BitVec 32) (mm : TsoMmMapping) (memory : ByteMemory)
    (size : Nat) (state : FitConditions) :
    BoundedLoop.Stable Trap.timeout fun fuel =>
      tsoMmGetFit platform fuel observed mm memory size state := by
  unfold tsoMmGetFit
  by_cases empty : mm.firstRegion = 0
  · simp only [empty, if_true]
    exact BoundedLoop.stable_const _
  · simp only [empty, if_false]
    exact BoundedLoop.stable_run _

theorem allocMapped_stable (observed : Nat → BitVec 32) (environment : Environment) (size : Nat)
    (kernel : Kernel) (mm : TsoMmMapping) :
    BoundedLoop.Stable Trap.timeout fun fuel =>
      allocMapped platform fuel observed environment size kernel mm := by
  unfold allocMapped
  by_cases short : mm.free < regionSize platform size
  · simp only [short, if_true]
    exact BoundedLoop.stable_const _
  · simp only [short, if_false]
    exact (tsoMmGetFit_stable observed mm kernel.memory size .noFit).bind fun _ =>
      BoundedLoop.stable_const _

theorem sysTsoMmAllocObserving_stable (observed : Nat → BitVec 32) (environment : Environment)
    (size : Nat) (kernel : Kernel) :
    BoundedLoop.Stable Trap.timeout fun fuel =>
      sysTsoMmAllocObserving platform fuel observed environment size kernel := by
  unfold sysTsoMmAllocObserving
  cases kernel.currentMm with
  | none =>
    exact (BoundedLoop.stable_const _).bind fun mm =>
      allocMapped_stable observed environment size kernel mm
  | some mm =>
    exact (BoundedLoop.stable_const _).bind fun mm =>
      allocMapped_stable observed environment size kernel mm

theorem sysTsoMmFree_stable (addr : Nat) (kernel : Kernel) :
    BoundedLoop.Stable Trap.timeout fun fuel => sysTsoMmFree platform fuel addr kernel := by
  unfold sysTsoMmFree
  cases mapped : kernel.currentMm with
  | none => exact BoundedLoop.stable_const _
  | some mm =>
    by_cases empty : mm.firstRegion = 0
    · simp only [empty, if_true]
      exact BoundedLoop.stable_const _
    by_cases here : platform.add mm.firstRegion platform.headerSize = addr
    · simp only [empty, here, if_true, if_false]
      exact BoundedLoop.stable_const _
    · simp only [empty, here, if_false]
      exact (BoundedLoop.stable_const _).bind fun _ => BoundedLoop.stable_run _

/-- A call that ends within some number of rounds ends the same within any larger one. -/
theorem invoke_stable (kernel : Kernel) (call : Call) :
    BoundedLoop.Stable Trap.timeout fun fuel => invoke platform fuel kernel call := by
  cases call with
  | alloc environment size => exact sysTsoMmAllocObserving_stable _ environment size kernel
  | free addr => exact sysTsoMmFree_stable addr kernel
  | switchStrategy strategy => exact BoundedLoop.stable_const _

theorem invoke_unique {first second : Nat} {call : Call} {left right : Outcome}
    (leftReturned : invoke platform first kernel call = .ok left)
    (rightReturned : invoke platform second kernel call = .ok right) : left = right :=
  (invoke_stable kernel call).unique leftReturned rightReturned

theorem allocObserving_unique {first second size : Nat} {observed : Nat → BitVec 32}
    {environment : Environment} {left right : Outcome}
    (leftReturned : sysTsoMmAllocObserving platform first observed environment size kernel =
      .ok left)
    (rightReturned : sysTsoMmAllocObserving platform second observed environment size kernel =
      .ok right) : left = right :=
  (sysTsoMmAllocObserving_stable observed environment size kernel).unique leftReturned
    rightReturned

/-! ### One call -/

/-- The mapping that `tso_mm_initialize` sets up represents the empty heap. -/
theorem Environment.Grants.represents {environment : Environment}
    (grants : environment.Grants platform) (memory : ByteMemory) :
    ∃ mm, tsoMmInitialize platform environment = .ok mm ∧ Represents mm memory grants.heap := by
  refine ⟨_, by rw [tsoMmInitialize, if_pos grants.object], ⟨⟨rfl, rfl, ?_⟩, rfl⟩⟩
  exact listed_nil.mpr rfl

theorem Kernel.Uses.unique {environment : Environment} {mm other : TsoMmMapping}
    (uses : kernel.Uses platform environment mm)
    (otherUses : kernel.Uses platform environment other) : mm = other := by
  rcases uses with mapped | ⟨unmapped, initialized⟩
  · rcases otherUses with otherMapped | ⟨unmapped, _⟩
    · exact Option.some.inj (mapped.symm.trans otherMapped)
    · rw [mapped] at unmapped
      cases unmapped
  · rcases otherUses with otherMapped | ⟨_, otherInitialized⟩
    · rw [otherMapped] at unmapped
      cases unmapped
    · exact Except.ok.inj (initialized.symm.trans otherInitialized)

theorem Kernel.Uses.mapped {environment : Environment} {mm : TsoMmMapping}
    (uses : kernel.Uses platform environment mm) (listed : mm.firstRegion ≠ 0) :
    kernel.currentMm = some mm := by
  rcases uses with mapped | ⟨_, initialized⟩
  · exact mapped
  · unfold tsoMmInitialize at initialized
    split at initialized
    · obtain rfl := Except.ok.inj initialized
      exact absurd rfl listed
    · cases initialized

/-- An allocation works on the record that it finds or sets up. -/
theorem Kernel.Uses.alloc_eq {environment : Environment} {mm : TsoMmMapping}
    (uses : kernel.Uses platform environment mm) (fuel : Nat) (observed : Nat → BitVec 32)
    (size : Nat) :
    sysTsoMmAllocObserving platform fuel observed environment size kernel =
      allocMapped platform fuel observed environment size kernel mm := by
  unfold sysTsoMmAllocObserving
  rcases uses with mapped | ⟨unmapped, initialized⟩
  · simp only [mapped, bind, Except.bind]
  · simp only [unmapped, initialized, bind, Except.bind]

/-- The record that an allocation works on represents the heap of the task, which is empty when
the call sets the record up. -/
theorem Kernel.Holds.uses {heap : Option (Heap platform)} (holds : kernel.Holds platform heap)
    {environment : Environment} (grants : environment.Grants platform) :
    ∃ mm, kernel.Uses platform environment mm ∧
      Represents mm kernel.memory (heap.getD grants.heap) := by
  cases heap with
  | none =>
    obtain ⟨mm, initialized, represents⟩ := grants.represents kernel.memory
    exact ⟨mm, Or.inr ⟨holds, initialized⟩, represents⟩
  | some heap =>
    obtain ⟨mm, mapped, represents⟩ := holds
    exact ⟨mm, Or.inl mapped, represents⟩

theorem Kernel.Holds.heap {heap : Option (Heap platform)} (holds : kernel.Holds platform heap)
    {mm : TsoMmMapping} (mapped : kernel.currentMm = some mm) :
    ∃ found : Heap platform, heap = some found ∧ Represents mm kernel.memory found := by
  cases heap with
  | none =>
    have unmapped : kernel.currentMm = none := holds
    rw [mapped] at unmapped
    cases unmapped
  | some heap =>
    obtain ⟨other, otherMapped, represents⟩ := holds
    obtain rfl : mm = other := Option.some.inj (mapped.symm.trans otherMapped)
    exact ⟨heap, rfl, represents⟩

theorem Kernel.Models.represents {task : TaskState platform} (models : kernel.Models task)
    {mm : TsoMmMapping} (mapped : kernel.currentMm = some mm) :
    ∃ heap : Heap platform, task.regions = heap.regions ∧ Represents mm kernel.memory heap := by
  obtain ⟨heap, held, represents⟩ := models.2.heap mapped
  refine ⟨heap, ?_, represents⟩
  unfold TaskState.regions
  rw [held]

theorem Kernel.Holds.congr {kernel other : Kernel} {heap : Option (Heap platform)}
    (holds : kernel.Holds platform heap) (record : other.currentMm = kernel.currentMm)
    (memory : other.memory = kernel.memory) : other.Holds platform heap := by
  cases heap with
  | none => exact record.trans holds
  | some heap =>
    obtain ⟨mm, mapped, represents⟩ := holds
    exact ⟨mm, record.trans mapped, memory ▸ represents⟩

/-- In a state that models a task, an allocation does what that of the heap does. -/
theorem Kernel.Models.alloc_realizes {strategy : AllocationStrategy} {heap : Option (Heap platform)}
    (models : kernel.Models (⟨strategy, heap⟩ : TaskState platform)) {environment : Environment}
    (grants : environment.Grants platform) {size : Nat}
    (fits : platform.headerSize + size < platform.modulus)
    (enough : (heap.getD grants.heap).regions.length < fuel) :
    ∃ outcome, invoke platform fuel kernel (.alloc environment size) = .ok outcome ∧
      outcome.Realizes kernel (heap.getD grants.heap)
          ((heap.getD grants.heap).alloc strategy environment size) ∧
        outcome.kernel.Models
          (⟨strategy, some ((heap.getD grants.heap).alloc strategy environment size).1⟩ :
            TaskState platform) := by
  obtain ⟨follows, holds⟩ := models
  have constant : ∀ _ : Nat, AllocationStrategy.ofValue kernel.currentStrategy = some strategy :=
    fun _ => by rw [follows, ofValue_value]
  obtain ⟨mm, uses, represents⟩ := holds.uses grants
  obtain ⟨outcome, returned, realizes⟩ :=
    TsoAlloc.alloc_realizes represents environment constant enough fits
  exact ⟨outcome, (uses.alloc_eq _ _ size).trans returned, realizes,
    realizes.strategy.trans follows, realizes.represents⟩

/-- In a state that models a task with a heap, a free does what that of the heap does. -/
theorem Kernel.Models.free_realizes {strategy : AllocationStrategy} {heap : Heap platform}
    (models : kernel.Models (⟨strategy, some heap⟩ : TaskState platform)) (addr : Nat)
    (enough : heap.regions.length ≤ fuel) :
    ∃ outcome, invoke platform fuel kernel (.free addr) = .ok outcome ∧
      outcome.Realizes kernel heap (heap.free addr) ∧
        outcome.kernel.Models (⟨strategy, some (heap.free addr).1⟩ : TaskState platform) := by
  obtain ⟨follows, mm, mapped, represents⟩ := models
  obtain ⟨outcome, returned, realizes⟩ := TsoAlloc.free_realizes mapped represents addr enough
  exact ⟨outcome, returned, realizes, realizes.strategy.trans follows, realizes.represents⟩

/-- A legal call returns, does to the state what it does to the abstract task, and changes memory
only in the headers of regions that are live before or after it. -/
theorem invoke_refines {task : TaskState platform} (models : kernel.Models task) {call : Call}
    (legal : call.Legal platform kernel) :
    ∃ fuel outcome next, invoke platform fuel kernel call = .ok outcome ∧
      task.Step ⟨call, outcome.answer⟩ next ∧ outcome.kernel.Models next ∧
        HeadersOnly platform (task.regions ++ next.regions) kernel.memory
          outcome.kernel.memory := by
  obtain ⟨strategy, heap⟩ := task
  cases call with
  | alloc environment size =>
    obtain ⟨grants, fits⟩ := legal
    obtain ⟨outcome, returned, realizes, refined⟩ :=
      models.alloc_realizes grants fits (Nat.lt_succ_self _)
    refine ⟨_, outcome, _, returned, ?_, refined, ?_⟩
    · rw [realizes.answer]
      exact .alloc strategy heap environment size grants
    · rw [← TaskState.regions_getD strategy heap grants]
      exact realizes.headersOnly
  | free addr =>
    cases heap with
    | none => exact absurd models.2 legal
    | some heap =>
      obtain ⟨outcome, returned, realizes, refined⟩ := models.free_realizes addr le_rfl
      refine ⟨_, outcome, _, returned, ?_, refined, realizes.headersOnly⟩
      rw [realizes.answer]
      exact .free strategy heap addr
  | switchStrategy value =>
    obtain ⟨next, rfl⟩ := legal
    exact ⟨0, _, ⟨next, heap⟩, rfl, .switchStrategy strategy next heap,
      ⟨rfl, models.2.congr rfl rfl⟩, fun _ _ => rfl⟩

theorem step_refines {after : Kernel} {event : Event} {task : TaskState platform}
    (models : kernel.Models task) (step : LegalStep platform kernel event after) :
    ∃ next, task.Step event next ∧ after.Models next ∧
      HeadersOnly platform (task.regions ++ next.regions) kernel.memory after.memory := by
  obtain ⟨legal, fuel, outcome, returned, answered, rfl⟩ := step
  obtain ⟨enough, expected, next, expectedReturned, taskStep, refined, frame⟩ :=
    invoke_refines models legal
  obtain rfl := invoke_unique returned expectedReturned
  rw [answered] at taskStep
  exact ⟨next, taskStep, refined, frame⟩

/-- A call leads to one state. -/
theorem legalStep_unique {event : Event} {left right : Kernel}
    (step : LegalStep platform kernel event left) (other : LegalStep platform kernel event right) :
    left = right := by
  obtain ⟨_, fuel, outcome, returned, _, rfl⟩ := step
  obtain ⟨_, otherFuel, otherOutcome, otherReturned, _, rfl⟩ := other
  rw [invoke_unique returned otherReturned]

/-- A run of legal calls is a run of the abstract task, call by call and answer by answer. -/
theorem run_refines {after : Kernel} {events : List Event} {task : TaskState platform}
    (models : kernel.Models task) (run : Run (LegalStep platform) kernel events after) :
    ∃ next, Run TaskState.Step task events next ∧ after.Models next := by
  have observed : events.flatMap (fun event => [event]) = events := List.flatMap_singleton' events
  rw [← observed]
  have matched : ∀ before event after (task : TaskState platform), before.Models task →
      LegalStep platform before event after →
        ∃ next, Run TaskState.Step task [event] next ∧ after.Models next := by
    intro before event after task related step
    obtain ⟨next, taskStep, refined, _⟩ := step_refines related step
    exact ⟨next, run_singleton.mpr taskStep, refined⟩
  exact run.simulate models matched

theorem Kernel.Fresh.models (platform : Platform) (fresh : kernel.Fresh) :
    ∃ strategy, kernel.Models (⟨strategy, none⟩ : TaskState platform) := by
  obtain ⟨unmapped, strategy, follows⟩ := fresh
  exact ⟨strategy, follows, unmapped⟩

/-- After every run of legal calls the state models an abstract task. -/
theorem models_of_run {after : Kernel} {events : List Event} (fresh : kernel.Fresh)
    (run : Run (LegalStep platform) kernel events after) :
    ∃ task : TaskState platform, after.Models task := by
  obtain ⟨strategy, models⟩ := fresh.models platform
  obtain ⟨next, _, refined⟩ := run_refines models run
  exact ⟨next, refined⟩

/-! ### Runs can be computed -/

instance (environment : Environment) : Decidable (environment.Grants platform) :=
  decidable_of_iff (environment.kmalloc = true ∧ 0 < environment.vmMmap ∧
      environment.vmMmap + platform.initialSize ≤ platform.modulus)
    ⟨fun all => ⟨all.1, all.2.1, all.2.2⟩, fun grants =>
      ⟨grants.object, grants.start_pos, grants.fits⟩⟩

instance (kernel : Kernel) : (call : Call) → Decidable (call.Legal platform kernel)
  | .alloc _ _ => inferInstanceAs (Decidable (_ ∧ _))
  | .free _ => inferInstanceAs (Decidable (_ ≠ _))
  | .switchStrategy strategy =>
    decidable_of_iff (∃ enumerator ∈ [AllocationStrategy.firstFit, .bestFit, .worstFit],
        strategy = enumerator.value)
      ⟨fun ⟨enumerator, _, same⟩ => ⟨enumerator, same⟩, fun ⟨enumerator, same⟩ =>
        ⟨enumerator, by cases enumerator <;> decide, same⟩⟩

/-- Makes calls one after another, as long as they are legal and return. -/
def execute (platform : Platform) (fuel : Nat) (kernel : Kernel) :
    List Call → Option (List Event × Kernel)
  | [] => some ([], kernel)
  | call :: calls =>
    if call.Legal platform kernel then
      match invoke platform fuel kernel call with
      | .error _ => none
      | .ok outcome =>
        (execute platform fuel outcome.kernel calls).map fun rest =>
          (⟨call, outcome.answer⟩ :: rest.1, rest.2)
    else none

/-- Calls that were made are a run. -/
theorem run_of_execute {calls : List Call} {events : List Event} {after : Kernel}
    (executed : execute platform fuel kernel calls = some (events, after)) :
    Run (LegalStep platform) kernel events after := by
  induction calls generalizing kernel events with
  | nil =>
    obtain ⟨rfl, rfl⟩ := Prod.mk.inj (Option.some.inj executed)
    exact Run.nil _
  | cons call calls inductionHypothesis =>
    unfold execute at executed
    split at executed
    · rename_i legal
      split at executed
      · cases executed
      · rename_i outcome returned
        obtain ⟨rest, restExecuted, same⟩ := Option.map_eq_some_iff.mp executed
        obtain ⟨rfl, rfl⟩ := Prod.mk.inj same
        exact Run.cons ⟨legal, fuel, outcome, returned, rfl, rfl⟩
          (inductionHypothesis restExecuted)
    · cases executed

/-- A computed run exists. -/
theorem exists_run (platform : Platform) (fuel : Nat) (kernel : Kernel) (calls : List Call)
    {Seen : Type} (read : List Event × Kernel → Seen) {seen : Seen}
    (executed : (execute platform fuel kernel calls).map read = some seen) :
    ∃ events after, Run (LegalStep platform) kernel events after ∧ read (events, after) = seen := by
  obtain ⟨⟨events, after⟩, here, same⟩ := Option.map_eq_some_iff.mp executed
  exact ⟨events, after, run_of_execute here, same⟩

theorem exists_ok {Failure Value Seen : Type} {computation : Except Failure Value}
    (read : Value → Seen) {seen : Seen} (computed : computation.toOption.map read = some seen) :
    ∃ value, computation = .ok value ∧ read value = seen := by
  cases computation with
  | error failure => cases computed
  | ok value => exact ⟨value, rfl, Option.some.inj computed⟩

/-- A computed call returns. -/
theorem exists_outcome (platform : Platform) (fuel : Nat) (kernel : Kernel) (call : Call)
    {Seen : Type} (read : Outcome → Seen) {seen : Seen}
    (computed : (invoke platform fuel kernel call).toOption.map read = some seen) :
    ∃ outcome, invoke platform fuel kernel call = .ok outcome ∧ read outcome = seen :=
  exists_ok read computed

/-- The allocator as the kernel boots it, for a task without a mapping: `FIRST_FIT`, over some
memory. -/
def Kernel.boot (memory : ByteMemory) : Kernel where
  currentStrategy := AllocationStrategy.firstFit.value
  currentMm := none
  memory := memory

theorem Kernel.fresh_boot (memory : ByteMemory) : (Kernel.boot memory).Fresh :=
  ⟨rfl, .firstFit, rfl⟩

/-- An environment that grants the second page. -/
def Environment.secondPage : Environment where
  kmalloc := true
  vmMmap := 0x1000
  copyToUser := 0

/-! ### The heap invariant -/

/-- What `mm` and the memory satisfy between calls: the list from `first_region` ends in `NULL`,
in strictly increasing order; each region lies inside the mapping; no two overlap; and the counter
is what the regions leave. -/
structure HeapInvariant (platform : Platform) (mm : TsoMmMapping) (memory : ByteMemory)
    (regions : List Region) : Prop where
  listed : Listed platform memory mm.firstRegion regions
  increasing : regions.Pairwise fun earlier later => earlier.addr < later.addr
  inside : ∀ region ∈ regions, mm.start ≤ region.addr ∧
    region.addr + platform.headerSize + region.size ≤ mm.start + mm.size
  disjoint : regions.Pairwise fun first second =>
    Disjoint (Set.Ico first.addr (first.addr + platform.headerSize + first.size))
      (Set.Ico second.addr (second.addr + platform.headerSize + second.size))
  counter : mm.free + (regions.map fun region => platform.headerSize + region.size).sum = mm.size

/-- A record that represents a heap satisfies the invariant. -/
theorem Represents.heapInvariant {mm : TsoMmMapping} {memory : ByteMemory} {heap : Heap platform}
    (represents : Represents mm memory heap) :
    HeapInvariant platform mm memory heap.regions where
  listed := represents.listed
  increasing := heap.addr_lt
  inside := by
    intro region member
    obtain ⟨low, high⟩ := heap.within member
    rw [represents.start, represents.size, Nat.add_assoc region.addr]
    exact ⟨low, high⟩
  disjoint := heap.packed.pairwise.imp fun {first second} below => by
    refine Set.disjoint_left.mpr fun byte left right => ?_
    have high := left.2
    have low := right.1
    unfold Region.top at below
    omega
  counter := by
    have used := heap.used_le
    have free := represents.free
    rw [represents.size]
    unfold Heap.freeBytes Layout.used at free
    unfold Layout.used at used
    omega

/-- In every state that a run of legal calls reaches, a mapping satisfies the heap invariant, and
every further legal call returns. -/
theorem heapInvariant_of_run {start after : Kernel} {events : List Event} (fresh : start.Fresh)
    (run : Run (LegalStep platform) start events after) :
    (∀ mm, after.currentMm = some mm →
        ∃ regions, HeapInvariant platform mm after.memory regions) ∧
      ∀ call : Call, call.Legal platform after →
        ∃ fuel outcome, invoke platform fuel after call = .ok outcome := by
  obtain ⟨⟨strategy, heap⟩, models⟩ := models_of_run fresh run
  constructor
  · intro mm mapped
    obtain ⟨found, _, represents⟩ := models.represents mapped
    exact ⟨found.regions, represents.heapInvariant⟩
  · intro call legal
    obtain ⟨fuel, outcome, _, returned, _⟩ := invoke_refines models legal
    exact ⟨fuel, outcome, returned⟩

theorem heapInvariant_sample : ∃ events after,
    Run (LegalStep Platform.i386) (Kernel.boot fun _ => 0) events after ∧
      after.currentMm = some ⟨0x1030, 0x1000, 32768, 32700⟩ ∧
        ∃ regions, HeapInvariant Platform.i386 ⟨0x1030, 0x1000, 32768, 32700⟩ after.memory
          regions := by
  obtain ⟨events, after, run, mapped⟩ := exists_run Platform.i386 9 (Kernel.boot fun _ => 0)
    [.alloc .secondPage 40, .alloc .secondPage 60, .free 0x1008] (fun state => state.2.currentMm)
    (show _ = some (some ⟨0x1030, 0x1000, 32768, 32700⟩) by decide +kernel)
  exact ⟨events, after, run, mapped,
    (heapInvariant_of_run (Kernel.fresh_boot _) run).1 _ mapped⟩

end TsoAlloc
