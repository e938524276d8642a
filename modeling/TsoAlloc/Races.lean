/-
This file lets the strategy change while allocations search, in the system of many tasks. A
call still is one step, but each read of `current_strategy` in it may find another strategy,
one of those that are alike. When strategies are alike that are all `BEST_FIT` or all
something else, no search misses its gaps: then every task keeps its record and a list without
overlap, and an allocation is met exactly when it would be met if the strategy stayed what it
is. The race decides where the region goes, and nothing more.
-/

import Mathlib.Data.Setoid.Basic
import TsoAlloc.Integrity
import TsoAlloc.MixedReads

namespace TsoAlloc

open Extents Transition

/-! ### Calls that see several strategies -/

/-- The strategies are both `BEST_FIT`, or neither is. -/
def sameBestFit : Setoid AllocationStrategy := Setoid.ker (· = .bestFit)

section

variable (platform : Platform)

/-- A call as one step may return this when its reads of `current_strategy` find strategies of some
kind. -/
def Call.MayReturn (Finds : AllocationStrategy → Prop) (kernel : Kernel) (call : Call)
    (outcome : Outcome) : Prop :=
  match call with
  | .alloc environment size => ∃ fuel observed, (∀ read, Finds (observed read)) ∧
    sysTsoMmAllocObserving platform fuel (valuesOf observed) environment size kernel = .ok outcome
  | .free addr => ∃ fuel, sysTsoMmFree platform fuel addr kernel = .ok outcome
  | .switchStrategy strategy => sysTsoMmSwitchStrategy strategy kernel = outcome

/-- The strategy in force after a call. -/
def Call.strategyAfter (current : BitVec 32) : Call → BitVec 32
  | .alloc _ _ => current
  | .free _ => current
  | .switchStrategy strategy => strategy

/-- The steps of a system in which the reads of a call find strategies like the one in force. -/
inductive Machine.RacingStep (alike : Setoid AllocationStrategy) :
    Machine → SystemEvent → Machine → Prop
  | other {machine next : Machine} {event : SystemEvent} :
    (∀ pid object made, event ≠ .step (.call pid object made)) →
      machine.SystemStep platform event next → RacingStep alike machine event next
  | call {machine : Machine} {pid object : Nat} {task : Task} {event : Event}
      {outcome : Outcome} {strategy : AllocationStrategy} :
    machine.tasks pid = some task → task.status = .running →
      event.call.Legal platform (machine.view task) →
        machine.Provides platform task object event.call →
          machine.currentStrategy = strategy.value →
            event.call.MayReturn platform (alike strategy) (machine.view task) outcome →
              outcome.answer = event.answer →
                RacingStep alike machine (.step (.call pid object event))
                  (machine.commit pid task object outcome)

end

variable {platform : Platform} {kernel : Kernel} {mm : TsoMmMapping} {machine next : Machine}
  {heaps : Nat → Option (Heap platform)} {alike : Setoid AllocationStrategy}

theorem sameBestFit_iff {left right : AllocationStrategy} :
    sameBestFit left right ↔ (left = .bestFit ↔ right = .bestFit) :=
  Setoid.ker_def.trans eq_iff_iff

/-- A call whose reads all find the strategy in force. -/
theorem Call.mayReturn_of_invoke {Finds : AllocationStrategy → Prop} {fuel : Nat} {call : Call}
    {outcome : Outcome} {strategy : AllocationStrategy}
    (current : kernel.currentStrategy = strategy.value) (found : Finds strategy)
    (returned : invoke platform fuel kernel call = .ok outcome) :
    call.MayReturn platform Finds kernel outcome := by
  cases call with
  | alloc environment size =>
    refine ⟨fuel, fun _ => strategy, fun _ => found, ?_⟩
    have same : valuesOf (fun _ => strategy) = fun _ => kernel.currentStrategy :=
      funext fun _ => current.symm
    rw [same]
    exact returned
  | free addr => exact ⟨fuel, returned⟩
  | switchStrategy strategy => exact Except.ok.inj returned

/-- A call that can find only the strategy in force returns what it returns when nobody
switches. -/
theorem Call.MayReturn.invoke {call : Call} {outcome : Outcome} {strategy : AllocationStrategy}
    (current : kernel.currentStrategy = strategy.value)
    (returned : call.MayReturn platform (strategy = ·) kernel outcome) :
    ∃ fuel, TsoAlloc.invoke platform fuel kernel call = .ok outcome := by
  cases call with
  | alloc environment size =>
    obtain ⟨fuel, observed, found, returned⟩ := returned
    refine ⟨fuel, ?_⟩
    have same : valuesOf observed = fun _ => kernel.currentStrategy :=
      funext fun read => (congrArg AllocationStrategy.value (found read).symm).trans current.symm
    rw [same] at returned
    exact returned
  | free addr => exact returned
  | switchStrategy strategy => exact ⟨0, congrArg _ returned⟩

/-- A racing system in which only one strategy is like the one in force is the system in which
nobody switches during a call. -/
theorem Machine.RacingStep.systemStep {event : SystemEvent}
    (step : machine.RacingStep platform ⊥ event next) :
    machine.SystemStep platform event next := by
  cases step with
  | other noCall step => exact step
  | call here running legal provides current returned answered =>
    obtain ⟨_, returned⟩ := returned.invoke current
    exact .call here running legal provides returned answered

/-! ### The search is not misled -/

/-- Reads that all find `BEST_FIT`, or never, are not misled at the first gap. -/
theorem not_misled {strategy : AllocationStrategy} {observed : Nat → AllocationStrategy}
    {gaps : Nat} (some : 0 < gaps) (found : ∀ read, sameBestFit strategy (observed read)) :
    ¬ Misled observed gaps := by
  intro misled
  have first := misled 1 le_rfl some
  have seed := (sameBestFit_iff.mp (found 0)).symm.trans (sameBestFit_iff.mp (found 1))
  by_cases best : observed 0 = .bestFit
  · rw [if_pos best, seed.mp best] at first
    cases first
  · rw [if_neg best] at first
    exact best (seed.mpr first)

/-- An allocation whose reads all find `BEST_FIT`, or never, settles on a gap that admits the
region, and on none exactly when there is none. -/
theorem Represents.alloc_racing {heap : Heap platform}
    (represents : Represents mm kernel.memory heap) {environment : Environment}
    (uses : kernel.Uses platform environment mm) {size : Nat}
    (fits : platform.headerSize + size < platform.modulus) {strategy : AllocationStrategy}
    {observed : Nat → AllocationStrategy} (found : ∀ read, sameBestFit strategy (observed read)) :
    ∃ settled, sysTsoMmAllocObserving platform (heap.regions.length + 1) (valuesOf observed)
        environment size kernel =
          .ok (settledOutcome platform environment kernel mm size settled) ∧
      (∀ room, settled = some room → heap.Admits (platform.headerSize + size) room) ∧
        (settled = none → ∀ room, ¬ heap.Admits (platform.headerSize + size) room) := by
  have exactSize : regionSize platform size = platform.headerSize + size :=
    Platform.add_of_lt fits
  have enough := Nat.lt_succ_self heap.regions.length
  by_cases empty : heap.regions = []
  · have constant (_ : Nat) :
        AllocationStrategy.ofValue AllocationStrategy.firstFit.value = some .firstFit :=
      ofValue_value _
    have same := (represents.alloc_of_empty uses empty enough (valuesOf observed) size).trans
      (represents.alloc_of_empty uses empty enough (fun _ => AllocationStrategy.firstFit.value)
        size).symm
    rw [uses.alloc_eq _ (fun _ => AllocationStrategy.firstFit.value),
      allocMapped_represents represents environment constant enough fits] at same
    exact ⟨_, same, fun room chosen => heap.admits_of_choose chosen, heap.choose_eq_none.mp⟩
  · have searched : ∃ settled, tsoMmGetFit platform (heap.regions.length + 1) (valuesOf observed)
        mm kernel.memory size .noFit = .ok (settleOn settled) ∧
          (∀ room, settled = some room → room ∈ heap.gapsAbove (regionSize platform size)) ∧
            (settled = none → heap.gapsAbove (regionSize platform size) = []) := by
      by_cases noGap : heap.gapsAbove (regionSize platform size) = []
      · exact ⟨none, tsoMmGetFit_of_no_gap represents.toDescribes _ empty enough noGap,
          by rintro room ⟨⟩, fun _ => noGap⟩
      · have proper : ∀ room ∈ heap.gapsAbove (regionSize platform size),
            0 < room.length ∧ room.length ≤ platform.initialSize := by
          intro room member
          obtain ⟨gap, longer⟩ := heap.mem_gapsAbove.mp member
          have := heap.length_le_of_mem_gaps gap
          omega
        obtain ⟨room, member, searched⟩ :=
          tsoMmGetFit_of_not_overlooks represents.toDescribes empty enough fun overlooks =>
            not_misled (List.length_pos_iff.mpr noGap) found
              ((overlooks_iff_misled represents.size proper).mp overlooks)
        exact ⟨some room, searched, by rintro other ⟨⟩; exact member, by rintro ⟨⟩⟩
    obtain ⟨settled, searched, above, nothing⟩ := searched
    have gap : ∀ room, settled = some room →
        room ∈ heap.gaps ∧ (room.behind = none ∨ 0 < room.length) := by
      intro room taken
      obtain ⟨gap, longer⟩ := heap.mem_gapsAbove.mp (above room taken)
      exact ⟨gap, Or.inr (by omega)⟩
    rw [uses.alloc_eq, allocMapped_eq represents.toDescribes environment gap searched]
    refine ⟨_, rfl, ?_, ?_⟩
    · intro room taken
      split at taken
      · cases taken
      · obtain ⟨gap, longer⟩ := heap.mem_gapsAbove.mp (above room taken)
        exact ⟨gap, Or.inl (exactSize ▸ longer)⟩
    · intro refused room admits
      split at refused
      · have := represents.le_free_of_admits admits
        omega
      · have member : room ∈ heap.gapsAbove (regionSize platform size) := by
          rw [heap.mem_gapsAbove, exactSize]
          exact ⟨admits.1, admits.2.resolve_right fun none => empty none.1⟩
        rw [nothing refused] at member
        cases member

/-- Wherever an allocation settles, if the gap admits the region, the outcome is that of a heap
that lies where the old one does. -/
theorem Represents.settled_realizes {heap : Heap platform}
    (represents : Represents mm kernel.memory heap) (environment : Environment) {size : Nat}
    {settled : Option (Room Region)}
    (admitted : ∀ room, settled = some room → heap.Admits (platform.headerSize + size) room) :
    ∃ after : Heap platform, after.start = heap.start ∧
      (settledOutcome platform environment kernel mm size settled).Realizes kernel heap
        (after, (settledOutcome platform environment kernel mm size settled).answer) := by
  cases settled with
  | none =>
    exact ⟨heap, rfl, {
      answer := rfl
      represents := ⟨mm, rfl, represents⟩
      strategy := rfl
      stores := by intro word member; cases member
      frame := fun _ _ => rfl }⟩
  | some room =>
    have admits := admitted room rfl
    exact ⟨heap.place size room admits, rfl, {
      answer := rfl
      represents := ⟨_, rfl, represents.place admits⟩
      strategy := rfl
      stores := by
        intro word member
        rcases placedStores_within admits member with ⟨low, high⟩ | ⟨region, regionMember, rfl⟩
        · exact ⟨⟨room.base, size⟩,
            List.mem_append_right _ ((heap.mem_place admits).mpr (Or.inl rfl)), low, high⟩
        · refine ⟨region, List.mem_append_left _ regionMember, le_rfl, ?_⟩
          unfold Region.payload Platform.headerSize
          omega
      frame := fun byte outside => placedMemory_of_outside outside }⟩

/-! ### What the tasks own -/

namespace Machine

/-- An allocation that realizes a heap where the old one lies leaves every task with what it
owns. -/
theorem Owns.realized (owns : machine.Owns heaps) {pid object size : Nat} {task : Task}
    {environment : Environment} {outcome : Outcome} {after : Heap platform}
    (here : machine.tasks pid = some task) (running : task.status = .running)
    (grants : environment.Grants platform)
    (provides : machine.Provides platform task object (.alloc environment size))
    (start : after.start = ((heaps pid).getD grants.heap).start)
    (realizes : outcome.Realizes (machine.view task) ((heaps pid).getD grants.heap)
      (after, outcome.answer)) :
    (machine.commit pid task object outcome).Owns (Function.update heaps pid (some after)) := by
  have runs := machine.runs_of_running here running
  obtain ⟨strategy, current⟩ := owns.strategy
  obtain ⟨mm, mapped, represents⟩ := realizes.represents
  -- The heap that the strategy in force leaves lies in the same range.
  have step := TaskState.Step.alloc strategy (heaps pid) environment size grants
  have same : (((heaps pid).getD grants.heap).alloc strategy environment size).1.start =
      after.start := by
    rw [start]
    rcases step.start_eq rfl with ⟨before, found, same⟩ | ⟨none, other, _, alloc, same⟩
    · have found : heaps pid = some before := found
      rw [same, found]
      rfl
    · have none : heaps pid = Option.none := none
      obtain ⟨rfl, _⟩ := Call.alloc.inj alloc
      rw [same, none]
      rfl
  obtain ⟨fresh, inRange, outside⟩ := owns.fresh runs provides step rfl
  unfold Layout.stop at outside
  rw [same] at inRange outside
  obtain ⟨valid, foreign⟩ := owns.foreign runs fresh
  have inside : ∀ region ∈ ((heaps pid).getD grants.heap).regions ++ after.regions,
      after.start ≤ region.addr ∧ region.top platform ≤ after.stop := by
    intro region member
    rcases List.mem_append.mp member with old | new
    · have within := ((heaps pid).getD grants.heap).within old
      unfold Layout.stop at within ⊢
      rwa [start]
    · exact after.within new
  have leaves : machine.LeavesHeap heaps pid object task outcome mm after := {
    here, running, mapped, represents, valid, foreign, outside
    inRange := by
      split
      · rw [represents.start, represents.size]
        exact List.mem_cons_self
      · exact inRange ‹_›
    frame := fun otherHeap apart => realizes.headersOnly.sameHeader inside apart }
  exact leaves.owns owns ⟨strategy, realizes.strategy.trans current⟩

/-- A racing call leaves the task with a heap of its own and every other task with its heap. -/
theorem Owns.racing (owns : machine.Owns heaps) (fair : alike ≤ sameBestFit) {pid object : Nat}
    {task : Task} {event : Event} {outcome : Outcome} {strategy : AllocationStrategy}
    (here : machine.tasks pid = some task) (running : task.status = .running)
    (legal : event.call.Legal platform (machine.view task))
    (provides : machine.Provides platform task object event.call)
    (returned : event.call.MayReturn platform (alike strategy) (machine.view task) outcome)
    (answered : outcome.answer = event.answer) :
    ∃ after : Option (Heap platform),
      (machine.commit pid task object outcome).Owns (Function.update heaps pid after) ∧
        outcome.kernel.currentStrategy = event.call.strategyAfter machine.currentStrategy := by
  have plain {fuel : Nat}
      (same : invoke platform fuel (machine.view task) event.call = .ok outcome) :
      ∃ after : Option (Heap platform),
        (machine.commit pid task object outcome).Owns (Function.update heaps pid after) ∧
          outcome.kernel.currentStrategy = event.call.strategyAfter machine.currentStrategy := by
    obtain ⟨found, after, follows, step, refined, _, kept⟩ :=
      owns.call here running legal provides same answered
    refine ⟨after.heap, kept, refined.1.trans ?_⟩
    rw [follows]
    generalize heaps pid = heap at step
    cases step <;> rfl
  obtain ⟨call, answer⟩ := event
  cases call with
  | alloc environment size =>
    obtain ⟨grants, fits⟩ := legal
    obtain ⟨fuel, observed, found, returned⟩ := returned
    obtain ⟨mm, uses, represents⟩ :=
      (owns.holds pid task (machine.runs_of_running here running)).uses grants
    obtain ⟨settled, called, admitted, _⟩ :=
      represents.alloc_racing uses fits fun read => fair (found read)
    obtain rfl := allocObserving_unique returned called
    obtain ⟨after, start, realizes⟩ := represents.settled_realizes environment admitted
    exact ⟨some after, owns.realized here running grants provides start realizes,
      realizes.strategy⟩
  | free addr =>
    obtain ⟨fuel, returned⟩ := returned
    exact plain returned
  | switchStrategy value => exact @plain 0 (congrArg Except.ok returned)

/-- A racing allocation is met exactly when it would be met if the strategy stayed what it is. -/
theorem Owns.racing_met (owns : machine.Owns heaps) (fair : alike ≤ sameBestFit) {pid size : Nat}
    {task : Task} {environment : Environment} {outcome : Outcome} {strategy : AllocationStrategy}
    (here : machine.tasks pid = some task) (running : task.status = .running)
    (legal : (Call.alloc environment size).Legal platform (machine.view task))
    (returned : (Call.alloc environment size).MayReturn platform (alike strategy)
      (machine.view task) outcome) :
    outcome.ret = 0 ↔ (machine.view task).Serves platform environment size := by
  obtain ⟨grants, fits⟩ := legal
  obtain ⟨fuel, observed, found, returned⟩ := returned
  have runs := machine.runs_of_running here running
  obtain ⟨_, models⟩ := owns.models runs
  obtain ⟨mm, uses, represents⟩ := (owns.holds pid task runs).uses grants
  obtain ⟨settled, called, admitted, nothing⟩ :=
    represents.alloc_racing uses fits fun read => fair (found read)
  obtain rfl := allocObserving_unique returned called
  rw [models.serves_iff grants fits]
  cases settled with
  | none =>
    constructor
    · rintro ⟨⟩
    · rintro ⟨room, admits⟩
      exact absurd admits (nothing rfl room)
  | some room => exact ⟨fun _ => ⟨room, admitted room rfl⟩, fun _ => rfl⟩

end Machine

end TsoAlloc
