/-
This file states what tasks may rely on when their calls are interrupted at any round and the
strategy changes under their searches, as long as nobody switches to or from `BEST_FIT`
while an allocation is pending. Every task keeps its record and a list without overlap, apart
from those of the others; what a call answers is settled by the state in which it returns;
and every call returns after as many of its own steps as its list is long.
-/

import TsoAlloc.Atomicity

namespace TsoAlloc

open Transition

variable {platform : Platform} {machine : Machine}

/-! ### A race -/

/-- `INIT_TASK` has allocated 40 bytes and forked a thread; it is in the loop of an allocation, and
the thread has switched to `WORST_FIT`. -/
theorem exists_raced : ∃ made machine pending,
    Run (Preempted.Step Platform.i386 sameBestFit) ⟨Machine.boot, fun _ => none⟩
        (made ++ [.enter 0 (.alloc .secondPage 8),
          .returns 1 8 ⟨.switchStrategy AllocationStrategy.worstFit.value, ⟨0, none⟩⟩])
        ⟨machine, Function.update (fun _ => none) 0 (some pending)⟩ ∧
      pending.call = .alloc .secondPage 8 := by
  obtain ⟨machine, call, current, tasks, record, _, _, _⟩ := Machine.exists_allocated
  have here : machine.tasks 0 = some { Task.initTask with tsoMm := 7 } := by
    rw [tasks]
    rfl
  have absent : machine.tasks 1 = none := by
    rw [tasks]
    rfl
  have fork := @run_thread Platform.i386 machine 0 1 _ .threadFlags here rfl rfl rfl absent
  obtain ⟨made, went, _⟩ := Preempted.exists_run_of_systemRun Machine.booted_boot.owns
    (run_steps (Run.cons call fork))
  generalize forked : machine.setTask 1 _ = next at went
  have parent : next.tasks 0 = some { Task.initTask with tsoMm := 7 } := by
    rw [← forked, Machine.setTask_tasks, if_neg (by decide)]
    exact here
  have child : next.tasks 1 = some { tsoMm := 0, mm := 0, status := .running } := by
    rw [← forked, Machine.setTask_tasks, if_pos rfl]
    rfl
  have mapped : (next.view { Task.initTask with tsoMm := 7 }).currentMm =
      some ⟨0x1000, 0x1000, 32768, 32720⟩ := by
    rw [← forked]
    exact record
  have follows : next.currentStrategy = AllocationStrategy.firstFit.value := by
    rw [← forked]
    exact current
  obtain ⟨scan, entered⟩ : ∃ scan, Call.enter Platform.i386
      (next.view { Task.initTask with tsoMm := 7 }) (.alloc .secondPage 8) =
        .ok (.inl (.searching .secondPage 8 scan)) := by
    rw [Call.enter, mapped]
    exact ⟨_, rfl⟩
  have enter : Preempted.Step Platform.i386 sameBestFit ⟨next, fun _ => none⟩
      (.enter 0 (.alloc .secondPage 8))
      ⟨next, Function.update (fun _ => none) 0 (some (.searching .secondPage 8 scan))⟩ :=
    .enter parent rfl rfl ⟨by decide, by decide⟩ entered
  have switch : Preempted.Step Platform.i386 sameBestFit
      ⟨next, Function.update (fun _ => none) 0 (some (.searching .secondPage 8 scan))⟩
      (.returns 1 8 ⟨.switchStrategy AllocationStrategy.worstFit.value, ⟨0, none⟩⟩)
      ⟨next.commit 1 ⟨0, 0, .running⟩ 8 (sysTsoMmSwitchStrategy AllocationStrategy.worstFit.value
          (next.view ⟨0, 0, .running⟩)),
        Function.update (fun _ => none) 0 (some (.searching .secondPage 8 scan))⟩ := by
    refine .pass child rfl rfl ⟨.worstFit, rfl⟩ trivial ?_ rfl rfl
    intro old new strategy switches _
    obtain rfl := AllocationStrategy.value_injective (follows.symm.trans strategy)
    obtain rfl := AllocationStrategy.value_injective (Call.switchStrategy.inj switches)
    exact sameBestFit_iff.mpr (by decide)
  exact ⟨made, _, _, run_append.mpr ⟨_, went.mono fun _ _ _ step => step.mono bot_le,
    Run.cons enter (run_singleton.mpr switch)⟩, rfl⟩

/-! ### Safety -/

/-- In every state that a system with interrupted calls and racing switches reaches: every record
has a well-formed list; no two tasks hold the same record; the regions of tasks that share an
address space are disjoint; an allocation that returns is met exactly when it would be met if it
were made now, in one step; and a free that returns does what it would do. -/
theorem safe_of_interrupted (booted : machine.Booted) {made : List PreemptedEvent}
    {state : Preempted}
    (run : Run (Preempted.Step platform sameBestFit) ⟨machine, fun _ => none⟩ made state) :
    (∀ pid task, state.machine.Runs pid task → task.tsoMm ≠ 0 →
        ∃ mm regions, state.machine.objects task.tsoMm = some mm ∧
          HeapInvariant platform mm (state.machine.spaces task.mm).memory regions) ∧
      (∀ first second left right, state.machine.Runs first left →
        state.machine.Runs second right → first ≠ second → left.tsoMm ≠ 0 →
          left.tsoMm ≠ right.tsoMm) ∧
      (∀ first second left right, state.machine.Runs first left →
        state.machine.Runs second right → first ≠ second → left.mm = right.mm →
          left.tsoMm ≠ 0 → right.tsoMm ≠ 0 → ∀ leftMm rightMm leftRegions rightRegions,
            state.machine.objects left.tsoMm = some leftMm →
            state.machine.objects right.tsoMm = some rightMm →
            Listed platform (state.machine.spaces left.mm).memory leftMm.firstRegion
              leftRegions →
            Listed platform (state.machine.spaces right.mm).memory rightMm.firstRegion
              rightRegions →
            ∀ region ∈ leftRegions, ∀ other ∈ rightRegions,
              Disjoint (Set.Ico region.addr (region.top platform))
                (Set.Ico other.addr (other.top platform))) ∧
      (∀ pid object environment size answer later,
        Preempted.Step platform sameBestFit state
            (.returns pid object ⟨.alloc environment size, answer⟩) later →
          ∃ task, state.machine.tasks pid = some task ∧
            (answer.ret = 0 ↔ (state.machine.view task).Serves platform environment size)) ∧
      ∀ pid object addr answer later,
        Preempted.Step platform sameBestFit state
            (.returns pid object ⟨.free addr, answer⟩) later →
          Machine.Step platform state.machine (.call pid object ⟨.free addr, answer⟩)
            later.machine := by
  obtain ⟨_, start⟩ := @Machine.Booted.sound platform machine booted sameBestFit
  obtain ⟨⟨heaps, sound⟩, _⟩ := start.run le_rfl run
  have owns := sound.owns
  have seen {pid object : Nat} {event : Event} {later : Preempted}
      (step : Preempted.Step platform sameBestFit state (.returns pid object event) later) :
      state.machine.RacingStep platform sameBestFit (.step (.call pid object event))
        later.machine := by
    obtain ⟨_, _, _, seen⟩ := sound.preempted le_rfl step
    exact run_singleton.mp seen
  refine ⟨?_, owns.exclusive, ?_, ?_, ?_⟩
  · intro pid task runs pointer
    obtain ⟨mm, record⟩ := Option.ne_none_iff_exists'.mp (owns.recorded pid task runs pointer)
    obtain ⟨heap, _, represents⟩ := owns.heap_of_record runs pointer record
    exact ⟨mm, heap.regions, record, represents.heapInvariant⟩
  · intro first second left right leftRuns rightRuns different shared leftPointer rightPointer
      leftMm rightMm leftRegions rightRegions leftRecord rightRecord leftListed rightListed
    exact owns.disjoint leftRuns rightRuns different shared leftPointer rightPointer leftRecord
      rightRecord leftListed rightListed
  · intro pid object environment size answer later step
    have racing := seen step
    generalize later.machine = next at racing
    cases racing with
    | other noCall _ => exact absurd rfl (noCall _ _ _)
    | @call _ _ task _ outcome strategy here running legal provides current returned answered =>
      refine ⟨task, here, ?_⟩
      have same : outcome.ret = answer.ret := congrArg Answer.ret answered
      rw [← same]
      exact owns.racing_met le_rfl here running legal returned
  · intro pid object addr answer later step
    have racing := seen step
    generalize later.machine = next at racing
    cases racing with
    | other noCall _ => exact absurd rfl (noCall _ _ _)
    | call here running legal provides current returned answered =>
      obtain ⟨fuel, returned⟩ := returned
      exact .call here running legal provides returned answered

theorem safe_sample : ∃ made state answer later task,
    Run (Preempted.Step Platform.i386 sameBestFit) ⟨Machine.boot, fun _ => none⟩ made state ∧
      PreemptedEvent.returns 1 8
          ⟨.switchStrategy AllocationStrategy.worstFit.value, ⟨0, none⟩⟩ ∈ made ∧
        Preempted.Step Platform.i386 sameBestFit state
            (.returns 0 7 ⟨.alloc .secondPage 8, answer⟩) later ∧
          state.machine.tasks 0 = some task ∧
            (answer.ret = 0 ↔
              (state.machine.view task).Serves Platform.i386 .secondPage 8) := by
  obtain ⟨made, machine, pending, run, call⟩ := exists_raced
  obtain ⟨_, start⟩ := @Machine.Booted.sound Platform.i386 Machine.boot Machine.booted_boot
    sameBestFit
  obtain ⟨⟨heaps, sound⟩, _⟩ := start.run le_rfl run
  obtain ⟨left, waits⟩ := sound.waits 0 pending rfl
  obtain ⟨source, _, _, here, _⟩ := id waits
  obtain ⟨count, outcome, _, _, rest, _⟩ := sound.finishes here rfl waits 7
  rw [call] at rest
  obtain ⟨state, onward, last⟩ := run_append.mp rest
  have whole := run_append.mpr ⟨_, run, onward⟩
  have step := run_singleton.mp last
  obtain ⟨_, _, _, met, _⟩ := safe_of_interrupted Machine.booted_boot whole
  obtain ⟨task, there, met⟩ := met _ _ _ _ _ _ step
  exact ⟨_, state, outcome.answer, _, task, whole, by simp, step, there, met⟩

/-! ### Calls return -/

/-- As long as a call is pending, its next step is possible, whatever the others do, and after at
most so many of its own steps as its list has regions, and one more, that step returns. -/
theorem returns_of_interrupted (booted : machine.Booted) {made : List PreemptedEvent}
    {state : Preempted}
    (run : Run (Preempted.Step platform sameBestFit) ⟨machine, fun _ => none⟩ made state)
    {pid : Nat} {pending : Pending} (there : state.pending pid = some pending) :
    ∃ task mm regions, state.machine.tasks pid = some task ∧
      state.machine.objects task.tsoMm = some mm ∧
        Listed platform (state.machine.spaces task.mm).memory mm.firstRegion regions ∧
          ∀ more later, Run (Preempted.Step platform sameBestFit) state more later →
            (∀ object event, .returns pid object event ∉ more) →
              more.count (.step pid) ≤ regions.length + 1 ∧
                ∃ event last, Preempted.Step platform sameBestFit later event last ∧
                  (event = .step pid ∨
                    ∃ answer, event = .returns pid 0 ⟨pending.call, answer⟩) := by
  obtain ⟨_, start⟩ := @Machine.Booted.sound platform machine booted sameBestFit
  obtain ⟨⟨heaps, sound⟩, _⟩ := start.run le_rfl run
  obtain ⟨left, waits⟩ := sound.waits pid pending there
  obtain ⟨task, heap, strategy, here, running, found, _, _, bound⟩ := id waits
  have runs := state.machine.runs_of_running here running
  have pointer := sound.owns.tsoMm_ne_zero runs found
  obtain ⟨mm, record⟩ :=
    Option.ne_none_iff_exists'.mp (sound.owns.recorded pid task runs pointer)
  obtain ⟨same, foundToo, represents⟩ := sound.owns.heap_of_record runs pointer record
  obtain rfl := Option.some.inj (found.symm.trans foundToo)
  refine ⟨task, mm, heap.regions, here, record, represents.listed, ?_⟩
  intro more later onward unreturned
  obtain ⟨laterHeaps, laterSound, next, fewer, stays, call, further, least⟩ :=
    sound.waits_of_run le_rfl there waits onward unreturned
  refine ⟨by omega, ?_⟩
  obtain ⟨laterTask, _, _, laterHere, _⟩ := id further
  rcases (further.step laterSound.owns laterHere).2 with
    ⟨_, _, went, _⟩ | ⟨outcome, _, went, _⟩
  · exact ⟨_, _, .step laterHere stays went, Or.inl rfl⟩
  · exact ⟨_, _, .finish laterHere stays went, Or.inr ⟨outcome.answer, by rw [call]⟩⟩

theorem returns_sample : ∃ made state bound,
    Run (Preempted.Step Platform.i386 sameBestFit) ⟨Machine.boot, fun _ => none⟩
        (made ++ [.enter 0 (.alloc .secondPage 8),
          .returns 1 8 ⟨.switchStrategy AllocationStrategy.worstFit.value, ⟨0, none⟩⟩]) state ∧
      ∀ more later, Run (Preempted.Step Platform.i386 sameBestFit) state more later →
        (∀ object event, .returns 0 object event ∉ more) → more.count (.step 0) ≤ bound ∧
          ∃ event last, Preempted.Step Platform.i386 sameBestFit later event last ∧
            (event = .step 0 ∨
              ∃ answer, event = .returns 0 0 ⟨.alloc .secondPage 8, answer⟩) := by
  obtain ⟨made, machine, pending, run, call⟩ := exists_raced
  have there : (Preempted.mk machine (Function.update (fun _ => none) 0 (some pending))).pending 0 =
      some pending := rfl
  obtain ⟨_, _, regions, _, _, _, returns⟩ :=
    returns_of_interrupted Machine.booted_boot run there
  rw [call] at returns
  exact ⟨made, _, regions.length + 1, run, returns⟩

end TsoAlloc
