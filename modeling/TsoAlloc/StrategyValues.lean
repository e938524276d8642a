/-
This file treats the argument of `sys_tso_mm_switch_strategy`, which is cast into the
enumeration unchecked. Under any other value than the three, both `switch` statements of
the search fall through: a gap that is large enough sets the state but is never recorded,
so the region goes to the start of the mapping, over the region that may be there. From
every state some frees and two empty requests lead to a first region that links to
itself, and the list is lost. So a value is safe exactly when it is one of the three.
-/

import TsoAlloc.MixedReads

namespace TsoAlloc

open Extents Transition

section

variable (platform : Platform)

/-- An allocation or a free that a task may make and that returns. -/
def HeapStep (before : Kernel) (event : Event) (after : Kernel) : Prop :=
  (∀ strategy, event.call ≠ .switchStrategy strategy) ∧ LegalStep platform before event after

/-- A state in which the list of a mapping is well formed, every allocation returns and is refused
or linked in a gap that passed the size test, and every free returns. -/
structure Kernel.Safe (kernel : Kernel) : Prop where
  wellFormed : ∀ mm, kernel.currentMm = some mm →
    ∃ regions, HeapInvariant platform mm kernel.memory regions
  alloc : ∀ environment size, environment.Grants platform →
    platform.headerSize + size < platform.modulus →
      KeepsApart platform kernel environment size fun _ => kernel.currentStrategy
  free : ∀ addr, kernel.currentMm ≠ none →
    ∃ fuel outcome, sysTsoMmFree platform fuel addr kernel = .ok outcome

/-- Every run of allocations and frees from a state reaches safe states only. -/
def Kernel.StaysSafe (kernel : Kernel) : Prop :=
  ∀ events after, Run (HeapStep platform) kernel events after → after.Safe platform

end

variable {platform : Platform} {kernel : Kernel}

/-! ### The three values -/

theorem ofValue_eq_none {value : BitVec 32}
    (unknown : ∀ strategy : AllocationStrategy, value ≠ strategy.value) :
    AllocationStrategy.ofValue value = none := by
  have first : value ≠ 0 := unknown .firstFit
  have best : value ≠ 1 := unknown .bestFit
  have worst : value ≠ 2 := unknown .worstFit
  rw [AllocationStrategy.ofValue, if_neg first, if_neg best, if_neg worst]

/-- A state that models a task is safe. -/
theorem Kernel.Models.safe {task : TaskState platform} (models : kernel.Models task) :
    kernel.Safe platform where
  wellFormed := by
    intro mm mapped
    obtain ⟨heap, _, represents⟩ := models.2.heap mapped
    exact ⟨heap.regions, represents.heapInvariant⟩
  alloc := by
    intro environment size grants fits
    have follows : (fun _ : Nat => kernel.currentStrategy) = valuesOf fun _ => task.strategy :=
      funext fun _ => models.1
    rw [follows]
    refine (models.2.keepsApart_iff grants fits _).mpr fun missed => ?_
    have read := missed.first_read
    revert read
    cases task.strategy <;> decide
  free := by
    intro addr mapped
    have legal : (Call.free addr).Legal platform kernel := mapped
    obtain ⟨fuel, outcome, _, returned, _⟩ := invoke_refines models legal
    exact ⟨fuel, outcome, returned⟩

theorem Kernel.Models.staysSafe {task : TaskState platform} (models : kernel.Models task) :
    kernel.StaysSafe platform := by
  intro events after run
  obtain ⟨next, _, refined⟩ := run_refines models (run.mono fun _ _ _ step => step.2)
  exact refined.safe

/-! ### Any other value -/

theorem overlooks_of_unknown {observed : Nat → BitVec 32}
    (unknown : ∀ read, AllocationStrategy.ofValue (observed read) = none) (seed read : Nat)
    (gaps : List (Room Region)) : Overlooks observed seed read gaps := by
  induction gaps generalizing read with
  | nil => trivial
  | cons room rest inductionHypothesis =>
    refine ⟨?_, inductionHypothesis (read + 1)⟩
    rw [unknown]
    exact ⟨by decide, rfl⟩

/-- Freeing the first region again and again empties the heap, whatever the strategy. -/
theorem exists_drain {heap : Heap platform} (holds : kernel.Holds platform (some heap)) :
    ∃ events after, ∃ empty : Heap platform, Run (HeapStep platform) kernel events after ∧
      after.Holds platform (some empty) ∧ empty.regions = [] ∧
        after.currentStrategy = kernel.currentStrategy := by
  generalize count : heap.regions.length = length
  induction length generalizing kernel heap with
  | zero => exact ⟨[], kernel, heap, Run.nil kernel, holds, List.length_eq_zero_iff.mp count, rfl⟩
  | succ length inductionHypothesis =>
    cases split : heap.regions with
    | nil =>
      rw [split] at count
      cases count
    | cons region rest =>
      obtain ⟨mm, mapped, represents⟩ := holds
      obtain ⟨outcome, returned, realizes⟩ :=
        free_realizes mapped represents (region.payload platform) le_rfl
      have atHead : heap.regions = [] ++ region :: rest := split
      have left : (heap.free (region.payload platform)).1.regions = rest :=
        heap.release_regions atHead
      have shorter : (heap.free (region.payload platform)).1.regions.length = length := by
        rw [split, List.length_cons] at count
        rw [left]
        omega
      obtain ⟨events, after, empty, run, drained, none, strategy⟩ :=
        inductionHypothesis realizes.represents shorter
      have mappedSome : kernel.currentMm ≠ Option.none := by
        rw [mapped]
        exact Option.some_ne_none mm
      have step : HeapStep platform kernel
          ⟨.free (region.payload platform), outcome.answer⟩ outcome.kernel :=
        ⟨fun _ => by simp, mappedSome, _, outcome, returned, rfl, rfl⟩
      exact ⟨_, after, empty, Run.cons step run, drained, none,
        strategy.trans realizes.strategy⟩

theorem heapStep_alloc {environment : Environment} (grants : environment.Grants platform)
    {size fuel : Nat} (fits : platform.headerSize + size < platform.modulus) {outcome : Outcome}
    (returned : sysTsoMmAlloc platform fuel environment size kernel = .ok outcome) :
    HeapStep platform kernel ⟨.alloc environment size, outcome.answer⟩ outcome.kernel :=
  ⟨fun _ same => (nomatch same), ⟨grants, fits⟩, fuel, outcome, returned, rfl, rfl⟩

/-- An environment that grants the lowest range there is. -/
def Environment.lowest : Environment where
  kmalloc := true
  vmMmap := 1
  copyToUser := 0

theorem Environment.lowest_grants (platform : Platform) : Environment.lowest.Grants platform where
  object := rfl
  start_pos := Nat.one_pos
  fits := by
    have := platform.initialSize_lt_modulus
    show 1 + platform.initialSize ≤ platform.modulus
    omega

/-- Where a request finds a gap but no strategy, the region goes to the start of the mapping; a
region that was there already is then linked to itself. -/
theorem exists_lost_of_region {heap : Heap platform} {mm : TsoMmMapping}
    (mapped : kernel.currentMm = some mm) (represents : Represents mm kernel.memory heap)
    (atStart : mm.firstRegion = heap.start) {room : Room Region} (gap : room ∈ heap.gaps)
    (longer : platform.headerSize < room.length)
    (unknown : AllocationStrategy.ofValue kernel.currentStrategy = none) :
    ∃ event after, HeapStep platform kernel event after ∧ ∃ lost,
      after.currentMm = some lost ∧ ∀ regions,
        ¬ Listed platform after.memory lost.firstRegion regions := by
  have startValid : heap.start ≠ 0 := heap.start_pos.ne'
  have nonempty : heap.regions ≠ [] := fun empty =>
    startValid (atStart ▸ represents.listed.first_eq_zero.mpr empty)
  have fits : platform.headerSize + 0 < platform.modulus := by
    have := platform.initialSize_lt_modulus
    have := platform.two_headers_lt_initialSize
    omega
  have exactSize : regionSize platform 0 = platform.headerSize := Platform.add_of_lt fits
  have uses : kernel.Uses platform .lowest mm := Or.inl mapped
  have returned := represents.alloc_of_overlooks uses nonempty (Nat.lt_succ_self _)
    (heap.gapsAbove_ne_nil.mpr ⟨room, gap, exactSize ▸ longer⟩)
    (overlooks_of_unknown (fun _ => unknown) _ 1 _)
  refine ⟨_, _, heapStep_alloc (Environment.lowest_grants platform) fits returned, _, rfl, ?_⟩
  intro regions
  have itself := (represents.toDescribes.nextOf_start 0).trans atStart
  exact not_listed_of_nextOf_self startValid itself

/-- On a heap without regions, two empty requests without a strategy lose the list. -/
theorem exists_lost_of_empty {heap : Heap platform} {mm : TsoMmMapping}
    (uses : kernel.Uses platform .lowest mm) (represents : Represents mm kernel.memory heap)
    (empty : heap.regions = [])
    (unknown : AllocationStrategy.ofValue kernel.currentStrategy = none) :
    ∃ events after, Run (HeapStep platform) kernel events after ∧ ∃ lost,
      after.currentMm = some lost ∧ ∀ regions,
        ¬ Listed platform after.memory lost.firstRegion regions := by
  have small := platform.initialSize_lt_modulus
  have headers := platform.two_headers_lt_initialSize
  have fits : platform.headerSize + 0 < platform.modulus := by omega
  have exactSize : regionSize platform 0 = platform.headerSize := Platform.add_of_lt fits
  have counted : ¬ mm.free < regionSize platform 0 := by
    have free := represents.free
    have used : heap.used = 0 := by unfold Layout.used; rw [empty]; rfl
    unfold Heap.freeBytes at free
    omega
  have wholeLength : heap.startGap.length = platform.initialSize := by
    have gap := heap.startGap_mem
    rw [heap.gaps_of_empty empty, List.mem_singleton] at gap
    rw [gap]
  have admits : heap.Admits (platform.headerSize + 0) heap.startGap :=
    ⟨heap.startGap_mem, Or.inl (by omega)⟩
  have returned := represents.alloc_of_empty uses empty (Nat.lt_succ_self _)
    (fun _ => kernel.currentStrategy) 0
  rw [if_neg counted] at returned
  have regions : (heap.place 0 heap.startGap admits).regions = [⟨heap.start, 0⟩] := by
    show insertRegion heap.regions ⟨heap.start, 0⟩ = _
    rw [empty]
    rfl
  have behind : (⟨some ⟨heap.start, 0⟩, heap.start + (platform.headerSize + 0),
      heap.stop - (heap.start + (platform.headerSize + 0))⟩ : Room Region) ∈
        (heap.place 0 heap.startGap admits).gaps :=
    (Layout.mem_gaps _).mpr ⟨[⟨heap.start, 0⟩], [], by rw [regions]; rfl, rfl⟩
  have longer : platform.headerSize < heap.stop - (heap.start + (platform.headerSize + 0)) := by
    unfold Layout.stop
    omega
  have placed : (placedOutcome platform .lowest kernel mm 0 heap.startGap).kernel.currentMm =
      some (placedMapping platform mm 0 heap.startGap) := rfl
  obtain ⟨event, after, step, lost⟩ :=
    exists_lost_of_region placed (represents.place admits) rfl behind longer unknown
  exact ⟨_, after,
    Run.cons (heapStep_alloc (Environment.lowest_grants platform) fits returned)
      (run_singleton.mpr step), lost⟩

/-- With any other value in force a task does not stay safe. -/
theorem Kernel.Holds.not_staysSafe {heap : Option (Heap platform)}
    (holds : kernel.Holds platform heap)
    (unknown : AllocationStrategy.ofValue kernel.currentStrategy = none) :
    ¬ kernel.StaysSafe platform := by
  intro safe
  suffices reached : ∃ events after, Run (HeapStep platform) kernel events after ∧ ∃ lost,
      after.currentMm = some lost ∧ ∀ regions,
        ¬ Listed platform after.memory lost.firstRegion regions by
    obtain ⟨events, after, run, lost, mapped, unlisted⟩ := reached
    obtain ⟨regions, invariant⟩ := (safe events after run).wellFormed lost mapped
    exact unlisted regions invariant.listed
  cases heap with
  | none =>
    obtain ⟨mm, uses, represents⟩ := holds.uses (Environment.lowest_grants platform)
    exact exists_lost_of_empty uses represents rfl unknown
  | some heap =>
    obtain ⟨events, middle, empty, run, ⟨mm, mapped, represents⟩, none, strategy⟩ :=
      exists_drain holds
    obtain ⟨others, after, further, lost⟩ :=
      exists_lost_of_empty (Or.inl mapped) represents none (by rw [strategy]; exact unknown)
    exact ⟨events ++ others, after, run_append.mpr ⟨middle, run, further⟩, lost⟩

/-- In every state that a run of legal calls reaches, the task stays safe after a switch to a value
if and only if the value is one of the three strategies. -/
theorem staysSafe_iff_of_run {start kernel : Kernel} {events : List Event} (fresh : start.Fresh)
    (run : Run (LegalStep platform) start events kernel) (value : BitVec 32) :
    (sysTsoMmSwitchStrategy value kernel).kernel.StaysSafe platform ↔
      ∃ strategy : AllocationStrategy, value = strategy.value := by
  obtain ⟨task, models⟩ := models_of_run fresh run
  have holds : (sysTsoMmSwitchStrategy value kernel).kernel.Holds platform task.heap := by
    obtain ⟨strategy, heap⟩ := task
    cases heap <;> exact models.2
  constructor
  · intro safe
    by_contra other
    push Not at other
    exact holds.not_staysSafe (ofValue_eq_none other) safe
  · rintro ⟨strategy, rfl⟩
    have switched : (sysTsoMmSwitchStrategy strategy.value kernel).kernel.Models
        (⟨strategy, task.heap⟩ : TaskState platform) := ⟨rfl, holds⟩
    exact switched.staysSafe

theorem staysSafe_sample : ∃ events after,
    Run (LegalStep Platform.i386) (Kernel.boot fun _ => 0) events after ∧
      after.currentMm = some ⟨0x1030, 0x1000, 32768, 32700⟩ ∧
        (sysTsoMmSwitchStrategy 2 after).kernel.StaysSafe Platform.i386 := by
  obtain ⟨events, after, run, mapped⟩ := exists_run Platform.i386 9 (Kernel.boot fun _ => 0)
    [.alloc .secondPage 40, .alloc .secondPage 60, .free 0x1008] (fun state => state.2.currentMm)
    (show _ = some (some ⟨0x1030, 0x1000, 32768, 32700⟩) by decide +kernel)
  exact ⟨events, after, run, mapped,
    (staysSafe_iff_of_run (Kernel.fresh_boot _) run 2).mpr ⟨.worstFit, rfl⟩⟩

/-- After a switch to 3 a task does not stay safe. -/
theorem not_staysSafe_three : ¬ ∀ (start kernel : Kernel) (events : List Event), start.Fresh →
    Run (LegalStep Platform.i386) start events kernel → ∀ value : BitVec 32,
      (sysTsoMmSwitchStrategy value kernel).kernel.StaysSafe Platform.i386 := by
  intro always
  have safe := always _ (Kernel.boot fun _ => 0) [] (Kernel.fresh_boot _) (Run.nil _) 3
  have holds : (sysTsoMmSwitchStrategy 3 (Kernel.boot fun _ => 0)).kernel.Holds
      Platform.i386 none := rfl
  exact holds.not_staysSafe (by decide) safe

end TsoAlloc
