/-
This file settles what several calls of `sys_tso_mm_free` do together. Live blocks may be
freed in any order: every call returns 0, and the regions and the counter that are left
depend on the set of addresses alone. When all blocks are freed the mapping is as it was
when it was set up, except for stale headers in memory that nothing links to, so every
further sequence of calls gets the answers it would get on a fresh mapping.
-/

import TsoAlloc.Releasing

namespace TsoAlloc

open Extents Transition

/-- Frees of some addresses, each of which returns 0. -/
def freesOf (addrs : List Nat) : List Event := addrs.map fun addr => ⟨.free addr, 0, none⟩

variable {platform : Platform} {kernel : Kernel} {mm : TsoMmMapping}

/-! ### Releasing several regions -/

namespace Heap

/-- The heap without the regions that have one of some payload addresses. -/
def releaseAll (heap : Heap platform) (addrs : List Nat) : Heap platform :=
  addrs.foldl Heap.release heap

theorem releaseAll_start (heap : Heap platform) (addrs : List Nat) :
    (heap.releaseAll addrs).start = heap.start := by
  induction addrs generalizing heap with
  | nil => rfl
  | cons addr addrs inductionHypothesis => exact inductionHypothesis (heap.release addr)

theorem releaseAll_regions (heap : Heap platform) (addrs : List Nat) :
    (heap.releaseAll addrs).regions =
      heap.regions.filter fun region => region.payload platform ∉ addrs := by
  induction addrs generalizing heap with
  | nil => simp [releaseAll]
  | cons addr addrs inductionHypothesis =>
    have first : (heap.release addr).regions =
        heap.regions.filter fun region => region.payload platform ≠ addr := rfl
    have rest : heap.releaseAll (addr :: addrs) = (heap.release addr).releaseAll addrs := rfl
    rw [rest, inductionHypothesis, first, List.filter_filter]
    refine List.filter_congr fun region _ => ?_
    simp [Bool.and_comm]

/-- The order in which regions are released does not matter. -/
theorem releaseAll_perm (heap : Heap platform) {order addrs : List Nat} (perm : order.Perm addrs) :
    heap.releaseAll order = heap.releaseAll addrs := by
  refine Heap.ext ?_ ?_
  · rw [releaseAll_start, releaseAll_start]
  · simp only [releaseAll_regions, perm.mem_iff]

end Heap

theorem Listed.first_eq {memory changed : ByteMemory} {first other : Nat} {regions : List Region}
    (listed : Listed platform memory first regions)
    (otherListed : Listed platform changed other regions) : first = other := by
  cases regions with
  | nil => rw [listed_nil.mp listed, listed_nil.mp otherListed]
  | cons region rest => rw [(listed_cons.mp listed).1, (listed_cons.mp otherListed).1]

/-- The heap decides the record. -/
theorem Represents.record_eq {memory changed : ByteMemory} {other : TsoMmMapping}
    {heap : Heap platform} (represents : Represents mm memory heap)
    (otherRepresents : Represents other changed heap) : mm = other := by
  have first := represents.listed.first_eq otherRepresents.listed
  obtain ⟨⟨start, size, _⟩, free⟩ := represents
  obtain ⟨⟨otherStart, otherSize, _⟩, otherFree⟩ := otherRepresents
  obtain ⟨firstRegion, mmStart, mmSize, mmFree⟩ := mm
  obtain ⟨otherFirst, otherMmStart, otherMmSize, otherMmFree⟩ := other
  dsimp only at first start size free otherStart otherSize otherFree
  rw [first, start, size, free, otherStart, otherSize, otherFree]

theorem Kernel.Models.free_step {strategy : AllocationStrategy} {heap : Heap platform}
    (models : kernel.Models (⟨strategy, some heap⟩ : TaskState platform)) {addr : Nat}
    (has : heap.Has addr) :
    ∃ after, LegalStep platform kernel ⟨.free addr, 0, none⟩ after ∧
      after.Models (⟨strategy, some (heap.release addr)⟩ : TaskState platform) := by
  obtain ⟨outcome, returned, realizes, refined⟩ := models.free_realizes addr le_rfl
  have answer : outcome.answer = ⟨0, none⟩ := by
    rw [realizes.answer, Heap.free, if_pos (Or.inl has)]
  obtain ⟨mm, mapped, _⟩ := models.2
  have legal : (Call.free addr).Legal platform kernel := Option.ne_none_iff_exists'.mpr ⟨mm, mapped⟩
  exact ⟨outcome.kernel, ⟨legal, _, outcome, returned, answer, rfl⟩, refined⟩

/-- Frees of the addresses of different live regions are a run. -/
theorem Kernel.Models.run_freesOf {strategy : AllocationStrategy} {heap : Heap platform}
    (models : kernel.Models (⟨strategy, some heap⟩ : TaskState platform)) {addrs : List Nat}
    (distinct : addrs.Nodup) (has : ∀ addr ∈ addrs, heap.Has addr) :
    ∃ after, Run (LegalStep platform) kernel (freesOf addrs) after ∧
      after.Models (⟨strategy, some (heap.releaseAll addrs)⟩ : TaskState platform) := by
  induction addrs generalizing kernel heap with
  | nil => exact ⟨kernel, Run.nil kernel, models⟩
  | cons addr addrs inductionHypothesis =>
    obtain ⟨fresh, restDistinct⟩ := List.nodup_cons.mp distinct
    obtain ⟨middle, step, middleModels⟩ := models.free_step (has addr List.mem_cons_self)
    have restHas : ∀ other ∈ addrs, (heap.release addr).Has other := by
      intro other member
      obtain ⟨region, regionMember, rfl⟩ := has other (List.mem_cons_of_mem _ member)
      refine ⟨region, List.mem_filter.mpr ⟨regionMember, decide_eq_true ?_⟩, rfl⟩
      rintro rfl
      exact fresh member
    obtain ⟨after, run, afterModels⟩ := inductionHypothesis middleModels restDistinct restHas
    exact ⟨after, Run.cons step run, afterModels⟩

/-! ### Two states with the same heap -/

theorem TaskState.Step.unique {task left right : TaskState platform} {call : Call}
    {answer other : Answer} (step : task.Step ⟨call, answer⟩ left)
    (otherStep : task.Step ⟨call, other⟩ right) : answer = other ∧ left = right := by
  cases step with
  | alloc strategy heap environment size grants => cases otherStep with | alloc => exact ⟨rfl, rfl⟩
  | free strategy heap addr => cases otherStep with | free => exact ⟨rfl, rfl⟩
  | switchStrategy strategy next heap =>
    generalize same : next.value = value at otherStep
    cases otherStep with
    | switchStrategy _ other =>
      obtain rfl := AllocationStrategy.value_injective same
      exact ⟨rfl, rfl⟩

theorem Call.Legal.congr {call : Call} {other : Kernel} (legal : call.Legal platform kernel)
    (mapped : other.currentMm ≠ none) : call.Legal platform other := by
  cases call with
  | alloc environment size => exact legal
  | free addr => exact mapped
  | switchStrategy strategy => exact legal

theorem TaskState.Step.mapped {task next : TaskState platform} {event : Event}
    (step : task.Step event next) (mapped : task.heap ≠ none) : next.heap ≠ none := by
  cases step with
  | alloc strategy heap environment size grants => exact Option.some_ne_none _
  | free strategy heap addr => exact Option.some_ne_none _
  | switchStrategy strategy next heap => exact mapped

theorem Kernel.Models.mapped {task : TaskState platform} (models : kernel.Models task)
    (mapped : task.heap ≠ none) : kernel.currentMm ≠ none := by
  obtain ⟨strategy, _ | heap⟩ := task
  · exact absurd rfl mapped
  · obtain ⟨mm, found, _⟩ := models.2
    exact Option.ne_none_iff_exists'.mpr ⟨mm, found⟩

/-- Every sequence of legal calls returns in both states, with the same answers. -/
def AnswersAlike (platform : Platform) (kernel other : Kernel) : Prop :=
  ∀ calls : List Call, (∀ call ∈ calls, call.Legal platform kernel) →
    ∃ events after otherAfter, events.map Event.call = calls ∧
      Run (LegalStep platform) kernel events after ∧
        Run (LegalStep platform) other events otherAfter

/-- Two states that model one task with a mapping answer alike. -/
theorem Kernel.Models.answersAlike {task : TaskState platform} {other : Kernel}
    (models : kernel.Models task) (otherModels : other.Models task) (mapped : task.heap ≠ none) :
    AnswersAlike platform kernel other := by
  intro calls legal
  induction calls generalizing kernel other task with
  | nil => exact ⟨[], kernel, other, rfl, Run.nil _, Run.nil _⟩
  | cons call calls inductionHypothesis =>
    have first := legal call List.mem_cons_self
    have otherFirst := first.congr (otherModels.mapped mapped)
    obtain ⟨fuel, outcome, next, returned, step, refined, _⟩ := invoke_refines models first
    obtain ⟨otherFuel, otherOutcome, otherNext, otherReturned, otherStep, otherRefined, _⟩ :=
      invoke_refines otherModels otherFirst
    obtain ⟨answers, rfl⟩ := step.unique otherStep
    have nextMapped := step.mapped mapped
    have restLegal : ∀ call ∈ calls, call.Legal platform outcome.kernel := fun call member =>
      (legal call (List.mem_cons_of_mem _ member)).congr (refined.mapped nextMapped)
    obtain ⟨events, after, otherAfter, made, run, otherRun⟩ :=
      inductionHypothesis refined otherRefined nextMapped restLegal
    refine ⟨⟨call, outcome.answer⟩ :: events, after, otherAfter, ?_, ?_, ?_⟩
    · rw [List.map_cons, made]
    · exact Run.cons ⟨first, fuel, outcome, returned, rfl, rfl⟩ run
    · exact Run.cons ⟨otherFirst, otherFuel, otherOutcome, otherReturned, answers.symm, rfl⟩
        otherRun

/-- The record that `tso_mm_initialize` sets up represents the empty heap at its start. -/
theorem represents_initialized {environment : Environment} {record : TsoMmMapping}
    (initialized : tsoMmInitialize platform environment = .ok record) {heap : Heap platform}
    (none : heap.regions = []) (start : record.start = heap.start) (memory : ByteMemory) :
    Represents record memory heap := by
  unfold tsoMmInitialize at initialized
  split at initialized
  · obtain rfl := Except.ok.inj initialized
    refine ⟨⟨start, rfl, ?_⟩, ?_⟩
    · rw [none]
      exact listed_nil.mpr rfl
    · unfold Heap.freeBytes Layout.used
      rw [none]
      rfl
  · cases initialized

/-- A mapping without regions answers as one that was just set up at its start, over any memory
and under any strategy chosen in both. -/
theorem Kernel.Models.answersAlike_initialized {strategy : AllocationStrategy}
    {heap : Heap platform} (models : kernel.Models ⟨strategy, some heap⟩)
    (none : heap.regions = []) {environment : Environment} {initial : TsoMmMapping}
    (initialized : tsoMmInitialize platform environment = .ok initial)
    (start : initial.start = heap.start) (next : AllocationStrategy) (memory : ByteMemory) :
    AnswersAlike platform (sysTsoMmSwitchStrategy next.value kernel).kernel
      ⟨next.value, some initial, memory⟩ := by
  obtain ⟨record, mapped, represents⟩ := models.2
  have drained : (sysTsoMmSwitchStrategy next.value kernel).kernel.Models
      (⟨next, some heap⟩ : TaskState platform) :=
    ⟨rfl, record, mapped, represents⟩
  have initially : (⟨next.value, some initial, memory⟩ : Kernel).Models
      (⟨next, some heap⟩ : TaskState platform) :=
    ⟨rfl, initial, rfl, represents_initialized initialized none start memory⟩
  exact drained.answersAlike initially (Option.some_ne_none _)

/-! ### Frees of a run -/

/-- In every state with a mapping that a run of legal calls reaches, different live payload
addresses can be freed in any order: each call returns 0, and the record and the regions that are
left are the same. When they are all the live ones, the list is empty, the counter is full, and
under every strategy the calls that follow get the answers that they get on a mapping just set up
at the same start, over any memory. -/
theorem drains_of_run {start after : Kernel} {events : List Event} (fresh : start.Fresh)
    (run : Run (LegalStep platform) start events after) {mm : TsoMmMapping}
    (mapped : after.currentMm = some mm) :
    ∃ regions, Listed platform after.memory mm.firstRegion regions ∧
      ∀ addrs : List Nat, addrs.Nodup →
        (∀ addr ∈ addrs, ∃ region ∈ regions, region.payload platform = addr) →
          ∃ freed : TsoMmMapping, freed.start = mm.start ∧ freed.size = mm.size ∧
            ∀ order : List Nat, order.Perm addrs →
              (∃ last, Run (LegalStep platform) after (freesOf order) last) ∧
              ∀ last, Run (LegalStep platform) after (freesOf order) last →
                last.currentMm = some freed ∧
                Listed platform last.memory freed.firstRegion
                  (regions.filter fun region => region.payload platform ∉ addrs) ∧
                ((∀ region ∈ regions, region.payload platform ∈ addrs) →
                  freed.firstRegion = 0 ∧ freed.free = freed.size ∧
                  ∀ (strategy : AllocationStrategy) environment record memory,
                    tsoMmInitialize platform environment = .ok record → record.start = mm.start →
                      AnswersAlike platform (sysTsoMmSwitchStrategy strategy.value last).kernel
                        ⟨strategy.value, some record, memory⟩) := by
  obtain ⟨⟨strategy, held⟩, models⟩ := models_of_run fresh run
  obtain ⟨heap, rfl, represents⟩ := models.2.heap mapped
  refine ⟨heap.regions, represents.listed, fun addrs distinct live => ?_⟩
  have reached (order : List Nat) (perm : order.Perm addrs) :
      ∃ last, Run (LegalStep platform) after (freesOf order) last ∧
        last.Models (⟨strategy, some (heap.releaseAll addrs)⟩ : TaskState platform) := by
    rw [← heap.releaseAll_perm perm]
    exact models.run_freesOf (perm.nodup_iff.mpr distinct)
      fun addr member => live addr (perm.subset member)
  obtain ⟨one, _, _, freed, freedMapped, freedRepresents⟩ := reached addrs (List.Perm.refl _)
  have freedStart : freed.start = mm.start := by
    rw [freedRepresents.start, heap.releaseAll_start, represents.start]
  refine ⟨freed, freedStart, freedRepresents.size.trans represents.size.symm,
    fun order perm => ?_⟩
  obtain ⟨known, knownRun, knownModels⟩ := reached order perm
  refine ⟨⟨known, knownRun⟩, fun last lastRun => ?_⟩
  obtain rfl : known = last :=
    knownRun.unique lastRun fun _ _ _ _ => legalStep_unique
  obtain ⟨record, recordMapped, recordRepresents⟩ := knownModels.2
  obtain rfl := freedRepresents.record_eq recordRepresents
  refine ⟨recordMapped, heap.releaseAll_regions addrs ▸ recordRepresents.listed, fun all => ?_⟩
  have none : (heap.releaseAll addrs).regions = [] := by
    rw [heap.releaseAll_regions]
    exact List.filter_eq_nil_iff.mpr fun region member => by simp [all region member]
  refine ⟨recordRepresents.listed.first_eq_zero.mpr none, ?_, ?_⟩
  · rw [recordRepresents.free_of_empty none, recordRepresents.size]
  · intro next environment initial memory initialized initialStart
    have sameStart : initial.start = (heap.releaseAll addrs).start := by
      rw [initialStart, ← freedStart, recordRepresents.start]
    exact knownModels.answersAlike_initialized none initialized sameStart next memory

/-- With three blocks, two are freed in either order, and all three from the last to the first. -/
theorem drains_sample : ∃ after one other last freed drained,
    Run (LegalStep Platform.i386) (Kernel.boot fun _ => 0) threeBlocks after ∧
      (Run (LegalStep Platform.i386) after (freesOf [0x1008, 0x1030]) one ∧
        Run (LegalStep Platform.i386) after (freesOf [0x1030, 0x1008]) other ∧
          one.currentMm = some freed ∧ other.currentMm = some freed ∧
            Listed Platform.i386 one.memory freed.firstRegion [⟨0x1048, 8⟩] ∧
              Listed Platform.i386 other.memory freed.firstRegion [⟨0x1048, 8⟩]) ∧
      Run (LegalStep Platform.i386) after (freesOf [0x1050, 0x1030, 0x1008]) last ∧
        last.currentMm = some drained ∧ drained.firstRegion = 0 ∧ drained.free = drained.size := by
  obtain ⟨after, run, mapped, found⟩ := exists_run_threeBlocks
  obtain ⟨regions, listed, frees⟩ := drains_of_run (Kernel.fresh_boot _) run mapped
  obtain rfl := found.unique listed
  obtain ⟨freed, _, _, orders⟩ := frees [0x1008, 0x1030] (by decide) (by decide)
  obtain ⟨⟨one, oneRun⟩, oneReached⟩ := orders [0x1008, 0x1030] (List.Perm.refl _)
  obtain ⟨⟨other, otherRun⟩, otherReached⟩ := orders [0x1030, 0x1008] (by decide)
  obtain ⟨oneMapped, oneListed, _⟩ := oneReached one oneRun
  obtain ⟨otherMapped, otherListed, _⟩ := otherReached other otherRun
  obtain ⟨drained, _, _, allOrders⟩ := frees [0x1008, 0x1030, 0x1050] (by decide) (by decide)
  obtain ⟨⟨last, lastRun⟩, lastReached⟩ := allOrders [0x1050, 0x1030, 0x1008] (by decide)
  obtain ⟨lastMapped, _, empties⟩ := lastReached last lastRun
  obtain ⟨none, full, _⟩ := empties (by decide)
  exact ⟨after, one, other, last, freed, drained, run,
    ⟨oneRun, otherRun, oneMapped, otherMapped, oneListed, otherListed⟩,
    lastRun, lastMapped, none, full⟩

end TsoAlloc
