/-
This file closes the circle between the code and the abstract task. A run of the code is
a run of the abstract task; here a run of the abstract task whose requests do not wrap is
a run of the code, call by call and answer by answer. So both have the same traces, and
after the same trace the record and the headers represent the abstract heap: nothing that
a caller can see is left out of the abstract task, and nothing is added to it.
-/

import TsoAlloc.Draining

namespace TsoAlloc

open Transition

section

variable (platform : Platform)

/-- The bytes of the region that a call asks for are a word. -/
def Call.Bounded : Call → Prop
  | .alloc _ size => platform.headerSize + size < platform.modulus
  | .free _ => True
  | .switchStrategy _ => True

variable {platform}

/-- A step of the abstract task whose request does not wrap. -/
def TaskState.BoundedStep (task : TaskState platform) (event : Event)
    (next : TaskState platform) : Prop :=
  event.call.Bounded platform ∧ task.Step event next

end

variable {platform : Platform} {kernel : Kernel}

/-! ### One state models one task -/

/-- A record and a memory represent at most one heap. -/
theorem Represents.heap_eq {mm : TsoMmMapping} {memory : ByteMemory} {heap other : Heap platform}
    (represents : Represents mm memory heap) (otherRepresents : Represents mm memory other) :
    heap = other :=
  Heap.ext (represents.start.symm.trans otherRepresents.start)
    (represents.listed.unique otherRepresents.listed)

/-- A state models at most one task. -/
theorem Kernel.Models.unique {task other : TaskState platform} (models : kernel.Models task)
    (otherModels : kernel.Models other) : task = other := by
  obtain ⟨strategy, heap⟩ := task
  obtain ⟨otherStrategy, otherHeap⟩ := other
  obtain rfl : strategy = otherStrategy :=
    AllocationStrategy.value_injective (models.1.symm.trans otherModels.1)
  cases mapped : kernel.currentMm with
  | none =>
    have unmapped : ∀ held : Option (Heap platform), kernel.Holds platform held → held = none := by
      intro held holds
      cases held with
      | none => rfl
      | some found =>
        obtain ⟨mm, other, _⟩ := holds
        rw [mapped] at other
        cases other
    rw [unmapped heap models.2, unmapped otherHeap otherModels.2]
  | some mm =>
    obtain ⟨found, rfl, represents⟩ := models.2.heap mapped
    obtain ⟨otherFound, rfl, otherRepresents⟩ := otherModels.2.heap mapped
    rw [represents.heap_eq otherRepresents]

/-! ### The two systems step alike -/

theorem Call.Legal.bounded {call : Call} (legal : call.Legal platform kernel) :
    call.Bounded platform := by
  cases call with
  | alloc environment size => exact legal.2
  | free addr => trivial
  | switchStrategy strategy => trivial

theorem TaskState.BoundedStep.legal {task next : TaskState platform} {event : Event}
    (step : task.BoundedStep event next) (models : kernel.Models task) :
    event.call.Legal platform kernel := by
  obtain ⟨bounded, taskStep⟩ := step
  cases taskStep with
  | alloc strategy heap environment size grants => exact ⟨grants, bounded⟩
  | free strategy heap addr => exact models.mapped (Option.some_ne_none heap)
  | switchStrategy strategy next heap => exact ⟨next, rfl⟩

/-- A bounded step of the abstract task is a step of the code. -/
theorem TaskState.BoundedStep.realized {task next : TaskState platform} {event : Event}
    (step : task.BoundedStep event next) (models : kernel.Models task) :
    ∃ after, LegalStep platform kernel event after ∧ after.Models next := by
  have legal := step.legal models
  obtain ⟨fuel, outcome, reached, returned, taskStep, refined, _⟩ := invoke_refines models legal
  obtain ⟨answer, rfl⟩ := taskStep.unique step.2
  exact ⟨outcome.kernel, ⟨legal, fuel, outcome, returned, answer, rfl⟩, refined⟩

/-- In a state that models a task, the runs of the code are the bounded runs of the task. -/
theorem Kernel.Models.run_iff {task next : TaskState platform} (models : kernel.Models task)
    {events : List Event} :
    (∃ after, Run (LegalStep platform) kernel events after ∧ after.Models next) ↔
      Run TaskState.BoundedStep task events next := by
  have observed : events.flatMap (fun event => [event]) = events := List.flatMap_singleton' events
  constructor
  · rintro ⟨after, run, refined⟩
    have matched : ∀ before event after (task : TaskState platform), before.Models task →
        LegalStep platform before event after →
          ∃ next, Run TaskState.BoundedStep task [event] next ∧ after.Models next := by
      intro before event after task related step
      obtain ⟨next, taskStep, refined, _⟩ := step_refines related step
      exact ⟨next, run_singleton.mpr ⟨step.1.bounded, taskStep⟩, refined⟩
    obtain ⟨reached, taskRun, reachedRefined⟩ := run.simulate models matched
    rw [observed] at taskRun
    rwa [refined.unique reachedRefined]
  · intro taskRun
    have matched : ∀ (before : TaskState platform) event after (kernel : Kernel),
        kernel.Models before → before.BoundedStep event after →
          ∃ next, Run (LegalStep platform) kernel [event] next ∧ next.Models after := by
      intro before event after kernel related step
      obtain ⟨next, taken, refined⟩ := step.realized related
      exact ⟨next, run_singleton.mpr taken, refined⟩
    rw [← observed]
    exact taskRun.simulate models matched

/-- Before its first call a task and the abstract task without a heap have the same traces, and
the states they lead to correspond. -/
theorem traces_eq {start : Kernel} {strategy : AllocationStrategy}
    (unmapped : start.currentMm = none) (follows : start.Follows strategy)
    (events : List Event) :
    (∀ next : TaskState platform,
        (∃ after, Run (LegalStep platform) start events after ∧ after.Models next) ↔
          Run TaskState.BoundedStep ⟨strategy, none⟩ events next) ∧
      ((∃ after, Run (LegalStep platform) start events after) ↔
        ∃ next : TaskState platform, Run TaskState.BoundedStep ⟨strategy, none⟩ events next) := by
  have models : start.Models (⟨strategy, none⟩ : TaskState platform) := ⟨follows, unmapped⟩
  refine ⟨fun next => models.run_iff, ?_⟩
  constructor
  · rintro ⟨after, run⟩
    obtain ⟨next, refined⟩ := models_of_run ⟨unmapped, strategy, follows⟩ run
    exact ⟨next, models.run_iff.mp ⟨after, run, refined⟩⟩
  · rintro ⟨next, taskRun⟩
    obtain ⟨after, run, _⟩ := models.run_iff.mpr taskRun
    exact ⟨after, run⟩

/-- A block is allocated, the strategy changes, the block is freed, and its place is taken. -/
theorem traces_sample : ∃ next : TaskState Platform.i386,
    Run TaskState.BoundedStep ⟨.firstFit, none⟩
      [⟨.alloc .secondPage 8, 0, some 0x1008⟩, ⟨.switchStrategy 2, 0, none⟩,
        ⟨.free 0x1008, 0, none⟩, ⟨.alloc .secondPage 24, 0, some 0x1008⟩] next := by
  obtain ⟨events, after, run, rfl⟩ := exists_run Platform.i386 9 (Kernel.boot fun _ => 0)
    [.alloc .secondPage 8, .switchStrategy 2, .free 0x1008, .alloc .secondPage 24]
    (fun state => state.1)
    (show _ = some [⟨.alloc .secondPage 8, 0, some 0x1008⟩, ⟨.switchStrategy 2, 0, none⟩,
      ⟨.free 0x1008, 0, none⟩, ⟨.alloc .secondPage 24, 0, some 0x1008⟩] by decide +kernel)
  exact (@traces_eq Platform.i386 (Kernel.boot fun _ => 0) .firstFit rfl rfl _).2.mp ⟨after, run⟩

end TsoAlloc
