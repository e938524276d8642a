/-
This file settles what a free does right after the allocation that delivered its address.
The region that the allocation put into a gap is the one that the free finds, wherever in
the list it went, so the regions, their links and the counter are as they were before. The
next request of that size finds the same gaps and gets the same address again.
-/

import TsoAlloc.Draining

namespace TsoAlloc

open Extents Transition

variable {platform : Platform} {kernel : Kernel} {mm : TsoMmMapping}

/-- Releasing a region that was just placed gives back the heap. -/
theorem Heap.release_place (heap : Heap platform) {size : Nat} {room : Room Region}
    (admits : heap.Admits (platform.headerSize + size) room) :
    (heap.place size room admits).release (room.base + platform.headerSize) = heap := by
  obtain ⟨front, back, split, shape⟩ := heap.mem_gaps.mp admits.1
  have placed : (heap.place size room admits).regions = front ++ ⟨room.base, size⟩ :: back :=
    heap.insertRegion_eq split (by rw [shape])
  have released := (heap.place size room admits).release_regions placed
  exact Heap.ext rfl (released.trans split.symm)

/-- An allocation that the strategy has a gap for is a step that delivers its payload address. -/
theorem Kernel.Models.alloc_step {strategy : AllocationStrategy} {heap : Heap platform}
    (models : kernel.Models (⟨strategy, some heap⟩ : TaskState platform))
    {environment : Environment} (grants : environment.Grants platform)
    (copied : environment.copyToUser = 0) {size : Nat}
    (fits : platform.headerSize + size < platform.modulus) {room : Room Region}
    (chosen : heap.choose strategy (platform.headerSize + size) = some room) :
    ∃ after, LegalStep platform kernel
        ⟨.alloc environment size, 0, some (room.base + platform.headerSize)⟩ after ∧
      after.Models (⟨strategy, some (heap.place size room (heap.admits_of_choose chosen))⟩ :
        TaskState platform) := by
  have legal : (Call.alloc environment size).Legal platform kernel := ⟨grants, fits⟩
  obtain ⟨fuel, outcome, next, returned, step, refined, _⟩ := invoke_refines models legal
  have expected := TaskState.Step.alloc strategy (some heap) environment size grants
  obtain ⟨answer, rfl⟩ := step.unique expected
  have allocated : (some heap).getD grants.heap = heap := rfl
  rw [allocated, Heap.alloc_of_some chosen] at answer refined
  rw [if_pos copied] at answer
  exact ⟨outcome.kernel, ⟨legal, fuel, outcome, returned, answer, rfl⟩, refined⟩

/-- An allocation that delivered an address has placed a region there. -/
theorem Kernel.Models.chosen_of_step {strategy : AllocationStrategy} {heap : Heap platform}
    (models : kernel.Models (⟨strategy, some heap⟩ : TaskState platform))
    {environment : Environment} {size address : Nat} {after : Kernel}
    (step : LegalStep platform kernel ⟨.alloc environment size, 0, some address⟩ after) :
    ∃ room, ∃ chosen : heap.choose strategy (platform.headerSize + size) = some room,
      environment.copyToUser = 0 ∧ address = room.base + platform.headerSize ∧
        after.Models (⟨strategy, some (heap.place size room (heap.admits_of_choose chosen))⟩ :
          TaskState platform) := by
  have grants : environment.Grants platform := step.1.1
  obtain ⟨next, taskStep, refined, _⟩ := step_refines models step
  have expected := TaskState.Step.alloc strategy (some heap) environment size grants
  obtain ⟨answer, rfl⟩ := taskStep.unique expected
  have allocated : (some heap).getD grants.heap = heap := rfl
  rw [allocated] at answer refined
  obtain nothing | ⟨room, chosen⟩ :=
    Option.eq_none_or_eq_some (heap.choose strategy (platform.headerSize + size))
  · rw [Heap.alloc_of_none nothing] at answer
    cases answer
  · rw [Heap.alloc_of_some chosen] at answer refined
    obtain ⟨_, delivered⟩ := Answer.mk.inj answer
    by_cases copied : environment.copyToUser = 0
    · rw [if_pos copied] at delivered
      exact ⟨room, chosen, copied, Option.some.inj delivered, refined⟩
    · rw [if_neg copied] at delivered
      cases delivered

/-- An allocation and the free of its address, once for each answer of the environment. -/
def pairsOf (size address : Nat) (environments : List Environment) : List Event :=
  environments.flatMap fun environment =>
    [⟨.alloc environment size, 0, some address⟩, ⟨.free address, 0, none⟩]

/-- After an allocation for which the strategy has a gap, the free of its address leads back to
the heap. -/
theorem Kernel.Models.undo_step {strategy : AllocationStrategy} {heap : Heap platform} {size : Nat}
    {room : Room Region} (admits : heap.Admits (platform.headerSize + size) room)
    (models : kernel.Models
      (⟨strategy, some (heap.place size room admits)⟩ : TaskState platform)) :
    ∃ after, LegalStep platform kernel ⟨.free (room.base + platform.headerSize), 0, none⟩ after ∧
      after.Models (⟨strategy, some heap⟩ : TaskState platform) := by
  have has : (heap.place size room admits).Has (room.base + platform.headerSize) :=
    ⟨⟨room.base, size⟩, (heap.mem_place admits).mpr (Or.inl rfl), rfl⟩
  obtain ⟨after, step, refined⟩ := models.free_step has
  rw [heap.release_place admits] at refined
  exact ⟨after, step, refined⟩

/-- Allocations of one size, each freed at once, all deliver the same address. -/
theorem Kernel.Models.run_pairsOf {strategy : AllocationStrategy} {heap : Heap platform}
    (models : kernel.Models (⟨strategy, some heap⟩ : TaskState platform)) {size : Nat}
    (fits : platform.headerSize + size < platform.modulus) {room : Room Region}
    (chosen : heap.choose strategy (platform.headerSize + size) = some room)
    {environments : List Environment}
    (delivering : ∀ environment ∈ environments,
      environment.Grants platform ∧ environment.copyToUser = 0) :
    ∃ after, Run (LegalStep platform) kernel
        (pairsOf size (room.base + platform.headerSize) environments) after ∧
      after.Models (⟨strategy, some heap⟩ : TaskState platform) := by
  induction environments generalizing kernel with
  | nil => exact ⟨kernel, Run.nil kernel, models⟩
  | cons environment environments inductionHypothesis =>
    obtain ⟨grants, copied⟩ := delivering environment List.mem_cons_self
    obtain ⟨middle, first, placed⟩ := models.alloc_step grants copied fits chosen
    obtain ⟨last, second, restored⟩ := placed.undo_step
    obtain ⟨after, rest, refined⟩ := inductionHypothesis restored
      fun other member => delivering other (List.mem_cons_of_mem _ member)
    exact ⟨after, Run.cons first (Run.cons second rest), refined⟩

/-- In every state with a mapping that a run of legal calls reaches, when an allocation returns 0
and delivers an address, the free of that address returns 0 and leaves the record and the list as
they were before the allocation. Repeated any number of times, the two deliver that address every
time. -/
theorem undoes_of_run {start after : Kernel} {events : List Event} (fresh : start.Fresh)
    (run : Run (LegalStep platform) start events after) {mm : TsoMmMapping}
    (mapped : after.currentMm = some mm) {environment : Environment} {size address : Nat}
    {middle : Kernel}
    (step : LegalStep platform after ⟨.alloc environment size, 0, some address⟩ middle) :
    ∃ regions, Listed platform after.memory mm.firstRegion regions ∧
      (∃ last, LegalStep platform middle ⟨.free address, 0, none⟩ last) ∧
      (∀ answer last, LegalStep platform middle ⟨.free address, answer⟩ last →
        answer = ⟨0, none⟩ ∧ last.currentMm = some mm ∧
          Listed platform last.memory mm.firstRegion regions) ∧
      ∀ environments : List Environment,
        (∀ other ∈ environments, other.Grants platform ∧ other.copyToUser = 0) →
          ∃ last, Run (LegalStep platform) after (pairsOf size address environments) last ∧
            last.currentMm = some mm ∧ Listed platform last.memory mm.firstRegion regions := by
  obtain ⟨⟨strategy, held⟩, models⟩ := models_of_run fresh run
  obtain ⟨heap, rfl, represents⟩ := models.2.heap mapped
  obtain ⟨room, chosen, _, rfl, placed⟩ := models.chosen_of_step step
  have fits : platform.headerSize + size < platform.modulus := step.1.2
  have restored {last : Kernel} (refined : last.Models
      (⟨strategy, some heap⟩ : TaskState platform)) :
      last.currentMm = some mm ∧ Listed platform last.memory mm.firstRegion heap.regions := by
    obtain ⟨record, recordMapped, recordRepresents⟩ := refined.2
    obtain rfl := represents.record_eq recordRepresents
    exact ⟨recordMapped, recordRepresents.listed⟩
  obtain ⟨last, second, refined⟩ := placed.undo_step
  refine ⟨heap.regions, represents.listed, ⟨last, second⟩, ?_, ?_⟩
  · rintro answer other ⟨legal, fuel, outcome, returned, rfl, rfl⟩
    obtain ⟨_, otherFuel, otherOutcome, otherReturned, answered, same⟩ := second
    obtain rfl := invoke_unique returned otherReturned
    obtain ⟨record, list⟩ := restored refined
    rw [← same] at record list
    exact ⟨answered, record, list⟩
  · intro environments delivering
    obtain ⟨other, otherRun, otherRefined⟩ := models.run_pairsOf fits chosen delivering
    exact ⟨other, otherRun, restored otherRefined⟩

theorem undoes_sample : ∃ after middle last,
    Run (LegalStep Platform.i386) (Kernel.boot fun _ => 0)
        [⟨.alloc .secondPage 8, 0, some 0x1008⟩] after ∧
      LegalStep Platform.i386 after ⟨.alloc .secondPage 40, 0, some 0x1018⟩ middle ∧
        LegalStep Platform.i386 middle ⟨.free 0x1018, 0, none⟩ last ∧
          last.currentMm = after.currentMm := by
  obtain ⟨events, middle, run, rfl⟩ := exists_run Platform.i386 9 (Kernel.boot fun _ => 0)
    [.alloc .secondPage 8, .alloc .secondPage 40] (fun state => state.1)
    (show _ = some [⟨.alloc .secondPage 8, 0, some 0x1008⟩,
      ⟨.alloc .secondPage 40, 0, some 0x1018⟩] by decide +kernel)
  obtain ⟨after, first, second⟩ := run_cons.mp run
  have step := run_singleton.mp second
  obtain ⟨other, otherRun, mapped, _⟩ := exists_run_firstBlock
  have firstRun := run_singleton.mpr first
  obtain rfl := firstRun.unique otherRun fun _ _ _ _ => legalStep_unique
  obtain ⟨_, _, ⟨last, freed⟩, restores, _⟩ :=
    undoes_of_run (Kernel.fresh_boot _) firstRun mapped step
  exact ⟨after, middle, last, firstRun, step, freed, (restores _ last freed).2.1.trans mapped.symm⟩

end TsoAlloc
