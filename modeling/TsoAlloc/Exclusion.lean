/-
This file proves that no two tasks that can run ever hold the same mapping record, over
every interleaving of forks and system calls. A system call of one task works on the heap
that the task owns: it changes memory only in the headers of its own regions, and a record
or a range that it is given is one that nobody has. So the calls of one task leave the
records and the lists of all the others alone.
-/

import TsoAlloc.Ownership

namespace TsoAlloc

open Transition

variable {platform : Platform} {machine next : Machine}

/-! ### What a call touches -/

/-- What changes only in headers inside one range changes no header of a heap outside it. -/
theorem HeadersOnly.sameHeader {regions : List Region} {memory changed : ByteMemory} {lo hi : Nat}
    (frame : HeadersOnly platform regions memory changed)
    (inside : ∀ region ∈ regions, lo ≤ region.addr ∧ region.top platform ≤ hi)
    {heap : Heap platform} (apart : hi ≤ heap.start ∨ heap.stop ≤ lo) :
    ∀ region ∈ heap.regions, SameHeader platform memory changed region.addr := by
  intro region member byte low high
  obtain ⟨start, stop⟩ := heap.within member
  refine frame byte fun other otherMember => ?_
  obtain ⟨otherLow, otherHigh⟩ := inside other otherMember
  have payload := region.payload_le_top platform
  have otherPayload := other.payload_le_top platform
  unfold Region.payload at payload otherPayload ⊢
  rcases apart with before | behind
  · exact Or.inr (by omega)
  · exact Or.inl (by omega)

/-- Where the heap of a task lies after a call: where it lay before, or in the range that the call
was given. -/
theorem TaskState.Step.start_eq {task after : TaskState platform} {event : Event}
    (step : task.Step event after) {heap : Heap platform} (held : after.heap = some heap) :
    (∃ before, task.heap = some before ∧ heap.start = before.start) ∨
      task.heap = none ∧ ∃ environment size, event.call = .alloc environment size ∧
        heap.start = environment.vmMmap := by
  have placed (other : Heap platform) (strategy : AllocationStrategy) (environment : Environment)
      (size : Nat) : (other.alloc strategy environment size).1.start = other.start := by
    cases chosen : other.choose strategy (platform.headerSize + size) with
    | none => rw [Heap.alloc_of_none chosen]
    | some room => rw [Heap.alloc_of_some chosen]; rfl
  cases step with
  | alloc strategy before environment size grants =>
    obtain rfl := Option.some.inj held
    cases before with
    | none => exact Or.inr ⟨rfl, environment, size, rfl, placed _ _ _ _⟩
    | some before => exact Or.inl ⟨before, rfl, placed _ _ _ _⟩
  | free strategy before addr =>
    obtain rfl := Option.some.inj held
    exact Or.inl ⟨before, rfl, rfl⟩
  | switchStrategy strategy other before => exact Or.inl ⟨heap, held, rfl⟩

theorem TaskState.Step.heap_eq_none {task after : TaskState platform} {event : Event}
    (step : task.Step event after) (left : after.heap = none) : task.heap = none := by
  cases step with
  | alloc strategy before environment size grants => cases left
  | free strategy before addr => cases left
  | switchStrategy strategy other before => exact left

/-- The regions that are live before or after a call lie in the range of the heap it leaves. -/
theorem TaskState.Step.regions_within {task after : TaskState platform} {event : Event}
    (step : task.Step event after) {heap : Heap platform} (held : after.heap = some heap) :
    ∀ region ∈ task.regions ++ after.regions,
      heap.start ≤ region.addr ∧ region.top platform ≤ heap.stop := by
  intro region member
  obtain ⟨strategy, before⟩ := task
  obtain ⟨later, _⟩ := after
  obtain rfl := held
  rcases List.mem_append.mp member with member | member
  · rcases step.start_eq rfl with ⟨was, beforeHeld, same⟩ | ⟨none, _⟩
    · obtain rfl := beforeHeld
      have inside := was.within member
      unfold Layout.stop at inside ⊢
      rwa [same]
    · obtain rfl := none
      cases member
  · exact heap.within member

namespace Machine

/-- The record that a task holds after a call that finds or sets one up. -/
def pointerAfter (task : Task) (object : Nat) : Nat :=
  if task.tsoMm = 0 then object else task.tsoMm

/-- A call that leaves a record rewrites the entry and the record of the task, and the memory of
its address space. -/
theorem commit_of_some (machine : Machine) (pid : Nat) (task : Task) (object : Nat)
    {outcome : Outcome} {mm : TsoMmMapping} (mapped : outcome.kernel.currentMm = some mm) :
    machine.commit pid task object outcome =
      { currentStrategy := outcome.kernel.currentStrategy
        tasks := Function.update machine.tasks pid
          (some { task with tsoMm := pointerAfter task object })
        objects := Function.update machine.objects (pointerAfter task object) (some mm)
        spaces := Function.update machine.spaces task.mm
          { memory := outcome.kernel.memory
            mapped := if task.tsoMm = 0 then
                ⟨mm.start, mm.size⟩ :: (machine.spaces task.mm).mapped
              else (machine.spaces task.mm).mapped } } := by
  unfold commit
  rw [mapped]
  rfl

theorem commit_of_none (machine : Machine) (pid : Nat) (task : Task) (object : Nat)
    {outcome : Outcome} (unmapped : outcome.kernel.currentMm = none)
    (memory : outcome.kernel.memory = (machine.spaces task.mm).memory) :
    machine.commit pid task object outcome =
      { machine with currentStrategy := outcome.kernel.currentStrategy } := by
  unfold commit
  rw [unmapped, memory]
  dsimp only
  rw [Function.update_eq_self]

theorem commit_spaces (machine : Machine) {pid object space : Nat} {task : Task}
    {outcome : Outcome} (apart : space ≠ task.mm) :
    (machine.commit pid task object outcome).spaces space = machine.spaces space := by
  unfold commit
  split
  · exact Function.update_of_ne apart _ _
  · exact Function.update_of_ne apart _ _

theorem commit_tasks (machine : Machine) {pid object other : Nat} {task : Task}
    {outcome : Outcome} (different : other ≠ pid) :
    (machine.commit pid task object outcome).tasks other = machine.tasks other := by
  unfold commit
  split
  · rfl
  · exact Function.update_of_ne different _ _

/-- A call of a running task that leaves it with a heap: its record is its own, its range is mapped
and apart from those of the tasks in the same address space, and their headers stay. -/
structure LeavesHeap (machine : Machine) (heaps : Nat → Option (Heap platform)) (pid object : Nat)
    (task : Task) (outcome : Outcome) (mm : TsoMmMapping) (heap : Heap platform) : Prop where
  here : machine.tasks pid = some task
  running : task.status = .running
  mapped : outcome.kernel.currentMm = some mm
  represents : Represents mm outcome.kernel.memory heap
  valid : pointerAfter task object ≠ 0
  foreign : ∀ other otherTask, machine.Runs other otherTask → other ≠ pid →
    otherTask.tsoMm ≠ pointerAfter task object
  inRange : ⟨heap.start, platform.initialSize⟩ ∈
    if task.tsoMm = 0 then ⟨mm.start, mm.size⟩ :: (machine.spaces task.mm).mapped
      else (machine.spaces task.mm).mapped
  outside : ∀ other otherTask otherHeap, machine.Runs other otherTask → other ≠ pid →
    otherTask.mm = task.mm → heaps other = some otherHeap →
      heap.stop ≤ otherHeap.start ∨ otherHeap.stop ≤ heap.start
  frame : ∀ otherHeap : Heap platform,
    heap.stop ≤ otherHeap.start ∨ otherHeap.stop ≤ heap.start →
      ∀ region ∈ otherHeap.regions, SameHeader platform (machine.spaces task.mm).memory
        outcome.kernel.memory region.addr

namespace LeavesHeap

variable {heaps : Nat → Option (Heap platform)} {pid object : Nat} {task : Task}
  {outcome : Outcome} {mm : TsoMmMapping} {heap : Heap platform}

theorem entry_self (leaves : machine.LeavesHeap heaps pid object task outcome mm heap) :
    (machine.commit pid task object outcome).tasks pid =
      some { task with tsoMm := pointerAfter task object } := by
  rw [commit_of_some _ _ _ _ leaves.mapped]
  exact Function.update_self _ _ _

theorem object_self (leaves : machine.LeavesHeap heaps pid object task outcome mm heap) :
    (machine.commit pid task object outcome).objects (pointerAfter task object) = some mm := by
  rw [commit_of_some _ _ _ _ leaves.mapped]
  exact Function.update_self _ _ _

theorem object_of_ne (leaves : machine.LeavesHeap heaps pid object task outcome mm heap)
    {pointer : Nat} (different : pointer ≠ pointerAfter task object) :
    (machine.commit pid task object outcome).objects pointer = machine.objects pointer := by
  rw [commit_of_some _ _ _ _ leaves.mapped]
  exact Function.update_of_ne different _ _

theorem space_self (leaves : machine.LeavesHeap heaps pid object task outcome mm heap) :
    (machine.commit pid task object outcome).spaces task.mm =
      { memory := outcome.kernel.memory
        mapped := if task.tsoMm = 0 then ⟨mm.start, mm.size⟩ :: (machine.spaces task.mm).mapped
          else (machine.spaces task.mm).mapped } := by
  rw [commit_of_some _ _ _ _ leaves.mapped]
  exact Function.update_self _ _ _

/-- The tasks that can run after the call. -/
theorem runs_cases (leaves : machine.LeavesHeap heaps pid object task outcome mm heap)
    {other : Nat} {otherTask : Task}
    (runs : (machine.commit pid task object outcome).Runs other otherTask) :
    (other = pid ∧ otherTask = { task with tsoMm := pointerAfter task object }) ∨
      other ≠ pid ∧ machine.Runs other otherTask := by
  obtain ⟨there, canRun⟩ := runs
  by_cases same : other = pid
  · rw [same, leaves.entry_self] at there
    exact Or.inl ⟨same, (Option.some.inj there).symm⟩
  · rw [machine.commit_tasks same] at there
    exact Or.inr ⟨same, there, canRun⟩

/-- Another task that holds a heap still does. -/
theorem holds_other (leaves : machine.LeavesHeap heaps pid object task outcome mm heap)
    (owns : machine.Owns heaps) {other : Nat} {otherTask : Task} (different : other ≠ pid)
    (runs : machine.Runs other otherTask) :
    ((machine.commit pid task object outcome).view otherTask).Holds platform (heaps other) := by
  have held := owns.holds other otherTask runs
  have record : ((machine.commit pid task object outcome).view otherTask).currentMm =
      (machine.view otherTask).currentMm := by
    unfold view
    rw [leaves.object_of_ne (leaves.foreign other otherTask runs different)]
  by_cases shared : otherTask.mm = task.mm
  · cases found : heaps other with
    | none =>
      rw [found] at held
      exact record.trans held
    | some otherHeap =>
      rw [found] at held
      obtain ⟨otherMm, otherMapped, before⟩ := held
      have kept := leaves.frame otherHeap
        (leaves.outside other otherTask otherHeap runs different shared found)
      refine ⟨otherMm, record.trans otherMapped, ?_⟩
      unfold view at before ⊢
      dsimp only at before ⊢
      rw [shared] at before ⊢
      rw [leaves.space_self]
      exact before.transport kept
  · refine held.congr record ?_
    unfold view
    dsimp only
    rw [machine.commit_spaces shared]

theorem holds_self (leaves : machine.LeavesHeap heaps pid object task outcome mm heap) :
    ((machine.commit pid task object outcome).view
      { task with tsoMm := pointerAfter task object }).Holds platform (some heap) := by
  refine ⟨mm, ?_, ?_⟩
  · exact (if_neg leaves.valid).trans leaves.object_self
  · unfold view
    dsimp only
    rw [leaves.space_self]
    exact leaves.represents

/-- The range of a heap is mapped. -/
theorem mapped_of_found (leaves : machine.LeavesHeap heaps pid object task outcome mm heap)
    (owns : machine.Owns heaps) {other : Nat} {otherTask : Task} {otherHeap : Heap platform}
    (runs : (machine.commit pid task object outcome).Runs other otherTask)
    (found : Function.update heaps pid (some heap) other = some otherHeap) :
    ⟨otherHeap.start, platform.initialSize⟩ ∈
      ((machine.commit pid task object outcome).spaces otherTask.mm).mapped := by
  rcases leaves.runs_cases runs with ⟨rfl, rfl⟩ | ⟨different, was⟩
  · rw [Function.update_self] at found
    obtain rfl := Option.some.inj found
    dsimp only
    rw [leaves.space_self]
    exact leaves.inRange
  · rw [Function.update_of_ne different] at found
    have before := owns.mapped other otherTask otherHeap was found
    by_cases shared : otherTask.mm = task.mm
    · rw [shared] at before ⊢
      rw [leaves.space_self]
      dsimp only
      split
      · exact List.mem_cons_of_mem _ before
      · exact before
    · rw [machine.commit_spaces shared]
      exact before

/-- The heaps of two tasks in one address space are apart. -/
theorem apart_of_found (leaves : machine.LeavesHeap heaps pid object task outcome mm heap)
    (owns : machine.Owns heaps) {first second : Nat} {left right : Task}
    {leftHeap rightHeap : Heap platform}
    (here : (machine.commit pid task object outcome).Runs first left)
    (there : (machine.commit pid task object outcome).Runs second right)
    (different : first ≠ second) (shared : left.mm = right.mm)
    (found : Function.update heaps pid (some heap) first = some leftHeap)
    (otherFound : Function.update heaps pid (some heap) second = some rightHeap) :
    leftHeap.stop ≤ rightHeap.start ∨ rightHeap.stop ≤ leftHeap.start := by
  rcases leaves.runs_cases here with ⟨rfl, rfl⟩ | ⟨apart, was⟩
  · rcases leaves.runs_cases there with ⟨rfl, rfl⟩ | ⟨otherApart, otherWas⟩
    · exact absurd rfl different
    · rw [Function.update_self] at found
      rw [Function.update_of_ne otherApart] at otherFound
      obtain rfl := Option.some.inj found
      exact leaves.outside second right rightHeap otherWas otherApart shared.symm otherFound
  · rw [Function.update_of_ne apart] at found
    rcases leaves.runs_cases there with ⟨rfl, rfl⟩ | ⟨otherApart, otherWas⟩
    · rw [Function.update_self] at otherFound
      obtain rfl := Option.some.inj otherFound
      exact (leaves.outside first left leftHeap was apart shared found).symm
    · rw [Function.update_of_ne otherApart] at otherFound
      exact owns.apart first second left right leftHeap rightHeap was otherWas different shared
        found otherFound

/-- No two tasks hold the same record. -/
theorem exclusive (leaves : machine.LeavesHeap heaps pid object task outcome mm heap)
    (owns : machine.Owns heaps) {first second : Nat} {left right : Task}
    (here : (machine.commit pid task object outcome).Runs first left)
    (there : (machine.commit pid task object outcome).Runs second right)
    (different : first ≠ second) (pointer : left.tsoMm ≠ 0) : left.tsoMm ≠ right.tsoMm := by
  rcases leaves.runs_cases here with ⟨rfl, rfl⟩ | ⟨apart, was⟩
  · rcases leaves.runs_cases there with ⟨rfl, rfl⟩ | ⟨otherApart, otherWas⟩
    · exact absurd rfl different
    · exact (leaves.foreign second right otherWas otherApart).symm
  · rcases leaves.runs_cases there with ⟨rfl, rfl⟩ | ⟨otherApart, otherWas⟩
    · exact leaves.foreign first left was apart
    · exact owns.exclusive first second left right was otherWas different pointer

/-- A copy that has not been woken is still one. -/
theorem isCopy (leaves : machine.LeavesHeap heaps pid object task outcome mm heap)
    (owns : machine.Owns heaps) {parent child : Nat} {stage : Stage} {copy : Task}
    (there : (machine.commit pid task object outcome).tasks child = some copy)
    (created : copy.status = .created parent stage) :
    (machine.commit pid task object outcome).IsCopy parent child stage copy := by
  have notOwn : child ≠ pid := by
    rintro rfl
    rw [leaves.entry_self] at there
    obtain rfl := Option.some.inj there
    rw [leaves.running] at created
    cases created
  rw [machine.commit_tasks notOwn] at there
  refine (owns.copies parent child stage copy there created).transfer ?_ ?_
  · intro source flags sourceHere forking
    have notRunning : parent ≠ pid :=
      ne_of_status sourceHere leaves.here (by rw [forking, leaves.running]; exact nofun)
    rw [machine.commit_tasks notRunning]
    exact sourceHere
  · intro user used usedHere different same
    by_cases own : user = pid
    · rw [own, leaves.entry_self] at usedHere
      obtain rfl := Option.some.inj usedHere
      exact ⟨pid, task, leaves.here, own ▸ different, same⟩
    · rw [machine.commit_tasks own] at usedHere
      exact ⟨user, used, usedHere, different, same⟩

/-- After the call every task has what it owns. -/
theorem owns (leaves : machine.LeavesHeap heaps pid object task outcome mm heap)
    (owns : machine.Owns heaps)
    (strategy : ∃ strategy : AllocationStrategy,
      outcome.kernel.currentStrategy = strategy.value) :
    (machine.commit pid task object outcome).Owns (Function.update heaps pid (some heap)) where
  strategy := by
    rw [commit_of_some _ _ _ _ leaves.mapped]
    exact strategy
  recorded := by
    intro other otherTask runs pointer
    rcases leaves.runs_cases runs with ⟨rfl, rfl⟩ | ⟨different, was⟩
    · rw [leaves.object_self]
      exact Option.some_ne_none mm
    · rw [leaves.object_of_ne (leaves.foreign other otherTask was different)]
      exact owns.recorded other otherTask was pointer
  holds := by
    intro other otherTask runs
    rcases leaves.runs_cases runs with ⟨rfl, rfl⟩ | ⟨different, was⟩
    · rw [Function.update_self]
      exact leaves.holds_self
    · rw [Function.update_of_ne different]
      exact leaves.holds_other owns different was
  exclusive := fun _ _ _ _ here there => leaves.exclusive owns here there
  mapped := fun _ _ _ runs found => leaves.mapped_of_found owns runs found
  apart := fun _ _ _ _ _ _ here there different shared found otherFound =>
    leaves.apart_of_found owns here there different shared found otherFound
  copies := fun _ _ _ _ there created => leaves.isCopy owns there created

end LeavesHeap

namespace Owns

variable {heaps : Nat → Option (Heap platform)}

theorem models (owns : machine.Owns heaps) {pid : Nat} {task : Task}
    (runs : machine.Runs pid task) :
    ∃ strategy : AllocationStrategy, (machine.view task).Models ⟨strategy, heaps pid⟩ := by
  obtain ⟨strategy, follows⟩ := owns.strategy
  exact ⟨strategy, follows, owns.holds pid task runs⟩

theorem tsoMm_eq_zero (owns : machine.Owns heaps) {pid : Nat} {task : Task}
    (runs : machine.Runs pid task) (none : heaps pid = none) : task.tsoMm = 0 := by
  by_contra pointer
  have held := owns.holds pid task runs
  rw [none] at held
  have unmapped : (if task.tsoMm = 0 then Option.none else machine.objects task.tsoMm) =
      Option.none := held
  rw [if_neg pointer] at unmapped
  exact owns.recorded pid task runs pointer unmapped

theorem tsoMm_ne_zero (owns : machine.Owns heaps) {pid : Nat} {task : Task} {heap : Heap platform}
    (runs : machine.Runs pid task) (found : heaps pid = some heap) : task.tsoMm ≠ 0 := by
  intro null
  have held := owns.holds pid task runs
  rw [found] at held
  obtain ⟨mm, mapped, _⟩ := held
  have unmapped : (machine.view task).currentMm = none := if_pos null
  rw [unmapped] at mapped
  cases mapped

/-- The record that a task holds after a call is not that of another task that can run. -/
theorem foreign (owns : machine.Owns heaps) {pid object : Nat} {task : Task}
    (runs : machine.Runs pid task)
    (fresh : task.tsoMm = 0 → object ≠ 0 ∧ machine.objects object = none) :
    pointerAfter task object ≠ 0 ∧ ∀ other otherTask, machine.Runs other otherTask →
      other ≠ pid → otherTask.tsoMm ≠ pointerAfter task object := by
  unfold pointerAfter
  split
  · rename_i null
    obtain ⟨valid, unused⟩ := fresh null
    refine ⟨valid, fun other otherTask otherRuns _ same => ?_⟩
    exact owns.recorded other otherTask otherRuns (same ▸ valid) (same ▸ unused)
  · rename_i pointer
    exact ⟨pointer, fun other otherTask otherRuns different =>
      (owns.exclusive pid other task otherTask runs otherRuns different.symm pointer).symm⟩

/-- A legal call of a running task that leaves a heap: the object and the range it was given, if it
was given any, are free. -/
theorem fresh (owns : machine.Owns heaps) {pid object : Nat} {task : Task}
    (runs : machine.Runs pid task) {event : Event}
    (provides : machine.Provides platform task object event.call)
    {strategy : AllocationStrategy} {after : TaskState platform} {heap : Heap platform}
    (step : TaskState.Step ⟨strategy, heaps pid⟩ event after) (left : after.heap = some heap) :
    (task.tsoMm = 0 → object ≠ 0 ∧ machine.objects object = none) ∧
      (task.tsoMm ≠ 0 →
        ⟨heap.start, platform.initialSize⟩ ∈ (machine.spaces task.mm).mapped) ∧
        ∀ other otherTask otherHeap, machine.Runs other otherTask → other ≠ pid →
          otherTask.mm = task.mm → heaps other = some otherHeap →
            heap.stop ≤ otherHeap.start ∨ otherHeap.stop ≤ heap.start := by
  rcases step.start_eq left with ⟨before, found, same⟩ | ⟨none, environment, size, alloc, start⟩
  · have pointer := owns.tsoMm_ne_zero runs found
    refine ⟨fun null => absurd null pointer, fun _ => ?_, ?_⟩
    · rw [same]
      exact owns.mapped pid task before runs found
    · intro other otherTask otherHeap otherRuns different shared otherFound
      have apart := owns.apart pid other task otherTask before otherHeap runs otherRuns
        different.symm shared.symm found otherFound
      unfold Layout.stop at apart ⊢
      rwa [same]
  · have null := owns.tsoMm_eq_zero runs none
    rw [alloc] at provides
    obtain ⟨valid, unused, disjoint⟩ := provides null
    refine ⟨fun _ => ⟨valid, unused⟩, fun pointer => absurd null pointer, ?_⟩
    intro other otherTask otherHeap otherRuns _ shared otherFound
    have otherRange := owns.mapped other otherTask otherHeap otherRuns otherFound
    rw [shared] at otherRange
    have apart := disjoint _ otherRange
    unfold Layout.stop
    rwa [start]

/-- A legal call of a running task is a step of its abstract task, changes memory only in the
headers of its own regions, and leaves every task with what it owns. -/
theorem call (owns : machine.Owns heaps) {pid object fuel : Nat} {task : Task} {event : Event}
    {outcome : Outcome} (here : machine.tasks pid = some task) (running : task.status = .running)
    (legal : event.call.Legal platform (machine.view task))
    (provides : machine.Provides platform task object event.call)
    (returned : invoke platform fuel (machine.view task) event.call = .ok outcome)
    (answered : outcome.answer = event.answer) :
    ∃ strategy, ∃ after : TaskState platform, machine.currentStrategy = strategy.value ∧
      TaskState.Step ⟨strategy, heaps pid⟩ event after ∧
        outcome.kernel.Models after ∧
          HeadersOnly platform
            ((⟨strategy, heaps pid⟩ : TaskState platform).regions ++ after.regions)
            (machine.spaces task.mm).memory outcome.kernel.memory ∧
              (machine.commit pid task object outcome).Owns
                (Function.update heaps pid after.heap) := by
  have runs := machine.runs_of_running here running
  obtain ⟨strategy, models⟩ := owns.models runs
  obtain ⟨after, step, refined, frame⟩ :=
    step_refines models ⟨legal, fuel, outcome, returned, answered, rfl⟩
  refine ⟨strategy, after, models.1, step, refined, frame, ?_⟩
  have later : ∃ strategy : AllocationStrategy,
      outcome.kernel.currentStrategy = strategy.value := ⟨after.strategy, refined.1⟩
  cases left : after.heap with
  | none =>
    have unmapped : outcome.kernel.currentMm = Option.none := by
      have holds := refined.2
      rw [left] at holds
      exact holds
    have before := step.heap_eq_none left
    have same : outcome.kernel.memory = (machine.spaces task.mm).memory := by
      refine funext fun byte => frame byte ?_
      unfold TaskState.regions
      rw [left, before]
      intro region member
      cases member
    have kept : Function.update heaps pid Option.none = heaps := by
      have found : heaps pid = Option.none := before
      rw [← found, Function.update_eq_self]
    rw [machine.commit_of_none pid task object unmapped same, kept]
    exact owns.of_runs later rfl
      (fun other otherTask otherRuns => Or.inl ⟨otherTask, otherRuns, rfl, rfl, rfl, rfl⟩)
      owns.copies
  | some heap =>
    have holds := refined.2
    rw [left] at holds
    obtain ⟨mm, mapped, represents⟩ := holds
    obtain ⟨fresh, inRange, outside⟩ := owns.fresh runs provides step left
    obtain ⟨valid, foreign⟩ := owns.foreign runs fresh
    have leaves : machine.LeavesHeap heaps pid object task outcome mm heap := {
      here, running, mapped, represents, valid, foreign, outside
      inRange := by
        split
        · rw [represents.start, represents.size]
          exact List.mem_cons_self
        · exact inRange ‹_›
      frame := fun otherHeap apart => frame.sameHeader (step.regions_within left) apart }
    exact leaves.owns owns later

/-- Every step leaves every task with what it owns. -/
theorem step (owns : machine.Owns heaps) {event : MachineEvent}
    (step : Machine.Step platform machine event next) :
    ∃ nextHeaps : Nat → Option (Heap platform), next.Owns nextHeaps := by
  cases step with
  | rejectFork here running => exact ⟨heaps, owns⟩
  | dupTaskStruct here running valid fresh =>
    exact ⟨heaps, owns.dupTaskStruct here running fresh⟩
  | copyMm here forking copyHere was fresh =>
    exact ⟨heaps, owns.copyMm here forking copyHere was fresh⟩
  | attach here was => exact ⟨heaps, owns.attach here was⟩
  | failFork here forking copyHere was early =>
    exact ⟨heaps, owns.failFork here forking copyHere was⟩
  | clearTsoMm here was => exact ⟨heaps, owns.clearTsoMm here was⟩
  | wakeUpNewTask here was => exact ⟨_, owns.wakeUpNewTask here was⟩
  | returnFork here forking copyHere woken =>
    exact ⟨heaps, owns.returnFork here forking copyHere woken⟩
  | call here running legal provides returned answered =>
    obtain ⟨_, _, _, _, _, _, kept⟩ := owns.call here running legal provides returned answered
    exact ⟨_, kept⟩

end Owns

/-- At the beginning nothing is owned. -/
theorem Booted.owns (booted : machine.Booted) :
    machine.Owns (fun _ => none : Nat → Option (Heap platform)) := by
  have initTask (pid : Nat) (task : Task) (here : machine.tasks pid = some task) :
      pid = 0 ∧ task = Task.initTask := by
    rw [booted.tasks] at here
    dsimp only at here
    split at here
    · exact ⟨‹_›, (Option.some.inj here).symm⟩
    · cases here
  refine ⟨⟨.firstFit, booted.strategy⟩, ?_, ?_, ?_, ?_, ?_, ?_⟩
  · rintro pid task ⟨here, _⟩ pointer
    rw [(initTask pid task here).2] at pointer
    exact absurd rfl pointer
  · rintro pid task ⟨here, _⟩
    rw [(initTask pid task here).2]
    rfl
  · rintro first second left right ⟨here, _⟩ ⟨there, _⟩ different
    exact absurd ((initTask first left here).1.trans (initTask second right there).1.symm)
      different
  · rintro pid task heap _ held
    cases held
  · rintro first second left right leftHeap rightHeap _ _ _ _ held
    cases held
  · intro parent child stage copy here created
    rw [(initTask child copy here).2] at created
    cases created

end Machine

/-- After every run every task that can run owns its record and its heap. -/
theorem owns_of_run {start machine : Machine} {events : List MachineEvent}
    (booted : start.Booted) (run : Run (Machine.Step platform) start events machine) :
    ∃ heaps : Nat → Option (Heap platform), machine.Owns heaps := by
  have initially : ∃ heaps : Nat → Option (Heap platform), start.Owns heaps := ⟨_, booted.owns⟩
  have kept : ∀ before event after, (∃ heaps : Nat → Option (Heap platform), before.Owns heaps) →
      Machine.Step platform before event after →
        ∃ heaps : Nat → Option (Heap platform), after.Owns heaps :=
    fun _ _ _ ⟨_, owns⟩ step => owns.step step
  exact run.invariant initially kept

/-! ### Exclusive ownership -/

/-- The record of a task and its region list are as they were. -/
def Machine.SameHeap (platform : Platform) (machine next : Machine) (task : Task) : Prop :=
  next.objects task.tsoMm = machine.objects task.tsoMm ∧
    ∀ mm regions, machine.objects task.tsoMm = some mm →
      Listed platform (machine.spaces task.mm).memory mm.firstRegion regions →
        Listed platform (next.spaces task.mm).memory mm.firstRegion regions

namespace Machine.Owns

variable {heaps : Nat → Option (Heap platform)}

theorem heap_of_record (owns : machine.Owns heaps) {pid : Nat} {task : Task}
    (runs : machine.Runs pid task) (pointer : task.tsoMm ≠ 0) {mm : TsoMmMapping}
    (record : machine.objects task.tsoMm = some mm) :
    ∃ heap, heaps pid = some heap ∧ Represents mm (machine.spaces task.mm).memory heap := by
  have mapped : (machine.view task).currentMm = some mm := (if_neg pointer).trans record
  exact (owns.holds pid task runs).heap mapped

/-- A call of one task leaves the record and the list of another task that can run. -/
theorem sameHeap_of_runs (owns : machine.Owns heaps) {pid object : Nat} {event : Event}
    (step : Machine.Step platform machine (.call pid object event) next) {other : Nat}
    {otherTask : Task} (different : other ≠ pid) (otherRuns : machine.Runs other otherTask)
    (pointer : otherTask.tsoMm ≠ 0) : machine.SameHeap platform next otherTask := by
  cases step with
  | @call _ _ _ task _ outcome here running legal provides returned answered =>
    have runs := machine.runs_of_running here running
    obtain ⟨strategy, after, _, taskStep, refined, frame, _⟩ :=
      owns.call here running legal provides returned answered
    cases left : after.heap with
    | none =>
      have unmapped : outcome.kernel.currentMm = none := by
        have holds := refined.2
        rw [left] at holds
        exact holds
      have before := taskStep.heap_eq_none left
      have same : outcome.kernel.memory = (machine.spaces task.mm).memory := by
        refine funext fun byte => frame byte ?_
        unfold TaskState.regions
        rw [left, before]
        intro region member
        cases member
      rw [machine.commit_of_none pid task object unmapped same]
      exact ⟨rfl, fun _ _ _ listed => listed⟩
    | some heap =>
      have holds := refined.2
      rw [left] at holds
      obtain ⟨mm, mapped, represents⟩ := holds
      obtain ⟨fresh, _, outside⟩ := owns.fresh runs provides taskStep left
      obtain ⟨_, foreign⟩ := owns.foreign runs fresh
      rw [machine.commit_of_some pid task object mapped]
      refine ⟨Function.update_of_ne (foreign other otherTask otherRuns different) _ _, ?_⟩
      intro record regions recorded listed
      obtain ⟨otherHeap, found, otherRepresents⟩ :=
        owns.heap_of_record otherRuns pointer recorded
      by_cases shared : otherTask.mm = task.mm
      · have kept := frame.sameHeader (taskStep.regions_within left)
          (outside other otherTask otherHeap otherRuns different shared found)
        obtain rfl := otherRepresents.listed.unique listed
        rw [shared] at listed ⊢
        dsimp only
        rw [Function.update_self]
        exact listed.transport (fun _ => otherHeap.header_fits) kept
      · dsimp only
        rw [Function.update_of_ne shared]
        exact listed

/-- A call of one task leaves every other task as it was, with its record and its list, also a copy
that has not been woken. -/
theorem sameHeap (owns : machine.Owns heaps) {pid object : Nat} {event : Event}
    (step : Machine.Step platform machine (.call pid object event) next) {other : Nat}
    {task : Task} (different : other ≠ pid) (here : machine.tasks other = some task)
    (pointer : task.tsoMm ≠ 0) : machine.SameHeap platform next task := by
  by_cases canRun : task.status.CanRun
  · exact owns.sameHeap_of_runs step different ⟨here, canRun⟩ pointer
  cases was : task.status with
  | running => rw [was] at canRun; exact absurd trivial canRun
  | forking child flags => rw [was] at canRun; exact absurd trivial canRun
  | created parent stage =>
    rcases owns.copies parent other stage task here was with null | ⟨_, source, flags, rest⟩
    · exact absurd null pointer
    obtain ⟨sourceHere, forking, same, space⟩ := rest
    have sourceRuns := machine.runs_of_forking sourceHere forking
    have notCaller : parent ≠ pid := by
      cases step with
      | call callerHere running =>
        exact Machine.ne_of_status sourceHere callerHere (by rw [forking, running]; exact nofun)
    have sourceSame := owns.sameHeap_of_runs step notCaller sourceRuns (same ▸ pointer)
    unfold Machine.SameHeap at sourceSame ⊢
    rw [same] at sourceSame
    rcases space with shared | own
    · rwa [shared]
    · refine ⟨sourceSame.1, fun mm regions record listed => ?_⟩
      cases step with
      | call callerHere running legal provides returned answered =>
        have apart := (own pid _ callerHere different.symm).symm
        rw [machine.commit_spaces apart]
        exact listed

/-- The regions of two tasks that share an address space have no byte in common. -/
theorem disjoint (owns : machine.Owns heaps) {first second : Nat} {left right : Task}
    (leftRuns : machine.Runs first left) (rightRuns : machine.Runs second right)
    (different : first ≠ second) (shared : left.mm = right.mm) (leftPointer : left.tsoMm ≠ 0)
    (rightPointer : right.tsoMm ≠ 0) {leftMm rightMm : TsoMmMapping}
    (leftRecord : machine.objects left.tsoMm = some leftMm)
    (rightRecord : machine.objects right.tsoMm = some rightMm)
    {leftRegions rightRegions : List Region}
    (leftListed : Listed platform (machine.spaces left.mm).memory leftMm.firstRegion leftRegions)
    (rightListed : Listed platform (machine.spaces right.mm).memory rightMm.firstRegion
      rightRegions) :
    ∀ region ∈ leftRegions, ∀ other ∈ rightRegions,
      Disjoint (Set.Ico region.addr (region.top platform))
        (Set.Ico other.addr (other.top platform)) := by
  intro region member other otherMember
  obtain ⟨leftHeap, leftFound, leftRepresents⟩ :=
    owns.heap_of_record leftRuns leftPointer leftRecord
  obtain ⟨rightHeap, rightFound, rightRepresents⟩ :=
    owns.heap_of_record rightRuns rightPointer rightRecord
  obtain rfl := leftRepresents.listed.unique leftListed
  obtain rfl := rightRepresents.listed.unique rightListed
  have ranges := owns.apart first second left right leftHeap rightHeap leftRuns rightRuns different
    shared leftFound rightFound
  have inside := leftHeap.within member
  have otherInside := rightHeap.within otherMember
  refine Set.disjoint_left.mpr fun byte here there => ?_
  have low := here.1
  have high := here.2
  have otherLow := there.1
  have otherHigh := there.2
  omega

end Machine.Owns

/-- In every state that a run of forks and calls reaches: no two tasks that can run hold the same
record; a child is woken without one; a call of one task leaves every other task with its record
and its list; every record has a well-formed list; the regions of tasks that share an address
space are disjoint; and every legal call returns. -/
theorem exclusive_of_run {start machine : Machine} {events : List MachineEvent}
    (booted : start.Booted) (run : Run (Machine.Step platform) start events machine) :
    (∀ first second left right, machine.Runs first left → machine.Runs second right →
        first ≠ second → left.tsoMm ≠ 0 → left.tsoMm ≠ right.tsoMm) ∧
      (∀ parent child next, Machine.Step platform machine (.wakeUpNewTask parent child) next →
        ∃ task, next.Runs child task ∧ task.tsoMm = 0) ∧
      (∀ pid object event next, Machine.Step platform machine (.call pid object event) next →
        ∀ other task, other ≠ pid → machine.tasks other = some task →
          next.tasks other = some task ∧
            (task.tsoMm ≠ 0 → machine.SameHeap platform next task)) ∧
      (∀ pid task, machine.Runs pid task → task.tsoMm ≠ 0 →
        ∃ mm regions, machine.objects task.tsoMm = some mm ∧
          HeapInvariant platform mm (machine.spaces task.mm).memory regions) ∧
      (∀ first second left right, machine.Runs first left → machine.Runs second right →
        first ≠ second → left.mm = right.mm → left.tsoMm ≠ 0 → right.tsoMm ≠ 0 →
          ∀ leftMm rightMm leftRegions rightRegions,
            machine.objects left.tsoMm = some leftMm →
            machine.objects right.tsoMm = some rightMm →
            Listed platform (machine.spaces left.mm).memory leftMm.firstRegion leftRegions →
            Listed platform (machine.spaces right.mm).memory rightMm.firstRegion rightRegions →
            ∀ region ∈ leftRegions, ∀ other ∈ rightRegions,
              Disjoint (Set.Ico region.addr (region.top platform))
                (Set.Ico other.addr (other.top platform))) ∧
      ∀ pid task (call : Call), machine.tasks pid = some task → task.status = .running →
        call.Legal platform (machine.view task) →
          ∃ fuel outcome, invoke platform fuel (machine.view task) call = .ok outcome := by
  obtain ⟨heaps, owns⟩ := owns_of_run booted run
  refine ⟨owns.exclusive, ?_, ?_, ?_, ?_, ?_⟩
  · intro parent child next step
    cases step with
    | @wakeUpNewTask _ _ copy here was =>
      have null := owns.tsoMm_of_cleared here was
      refine ⟨{ copy with status := .running }, ⟨?_, trivial⟩, null⟩
      rw [Machine.setTask_tasks, if_pos rfl]
  · intro pid object event next step other task different here
    refine ⟨?_, owns.sameHeap step different here⟩
    cases step with
    | call callerHere running legal provides returned answered =>
      rw [Machine.commit_tasks _ different]
      exact here
  · intro pid task runs pointer
    obtain ⟨mm, record⟩ := Option.ne_none_iff_exists'.mp (owns.recorded pid task runs pointer)
    obtain ⟨heap, _, represents⟩ := owns.heap_of_record runs pointer record
    exact ⟨mm, heap.regions, record, represents.heapInvariant⟩
  · intro first second left right leftRuns rightRuns different shared leftPointer rightPointer
      leftMm rightMm leftRegions rightRegions leftRecord rightRecord leftListed rightListed
    exact owns.disjoint leftRuns rightRuns different shared leftPointer rightPointer leftRecord
      rightRecord leftListed rightListed
  · intro pid task call here running legal
    have runs := machine.runs_of_running here running
    obtain ⟨strategy, models⟩ := owns.models runs
    obtain ⟨fuel, outcome, _, returned, _⟩ := invoke_refines models legal
    exact ⟨fuel, outcome, returned⟩

/-- A system as it boots, with nothing mapped. -/
def Machine.boot : Machine where
  currentStrategy := AllocationStrategy.firstFit.value
  tasks := fun pid => if pid = 0 then some Task.initTask else none
  objects := fun _ => none
  spaces := fun _ => ⟨fun _ => 0, []⟩

theorem Machine.booted_boot : Machine.boot.Booted where
  strategy := rfl
  tasks := rfl
  objects := fun _ => rfl

/-- The flags of a thread. -/
def CloneFlags.threadFlags : CloneFlags where
  newNs := false
  fs := true
  newUser := false
  newPid := false
  thread := true
  sighand := true
  vm := true

/-- The system in which `do_fork` has made a thread that can be woken. -/
def Machine.withThread (machine : Machine) (parent child : Nat) (task : Task) (flags : CloneFlags) :
    Machine :=
  (machine.setTask parent (some { task with status := .forking child flags })).setTask child
    (some { tsoMm := 0, mm := task.mm, status := .created parent .cleared })

theorem Machine.withThread_child (machine : Machine) (parent child : Nat) (task : Task)
    (flags : CloneFlags) :
    (machine.withThread parent child task flags).tasks child =
      some { tsoMm := 0, mm := task.mm, status := .created parent .cleared } := by
  rw [withThread, setTask_tasks, if_pos rfl]

theorem Machine.withThread_parent (machine : Machine) {parent child : Nat} (apart : parent ≠ child)
    (task : Task) (flags : CloneFlags) :
    (machine.withThread parent child task flags).tasks parent =
      some { task with status := .forking child flags } := by
  rw [withThread, setTask_tasks, if_neg apart, setTask_tasks, if_pos rfl]

/-- A fork of a thread that meets no error comes to a copy that can be woken. -/
theorem run_fork {parent child : Nat} {task : Task} {flags : CloneFlags}
    (here : machine.tasks parent = some task) (running : task.status = .running)
    (valid : flags.invalid = false) (shares : flags.vm = true)
    (fresh : machine.tasks child = none) :
    Run (Machine.Step platform) machine [.dupTaskStruct parent child flags,
        .copyMm parent child 0, .attach parent child, .clearTsoMm parent child]
      (machine.withThread parent child task flags) := by
  have apart : parent ≠ child := by
    rintro rfl
    rw [fresh] at here
    cases here
  -- Behind the first step, every step rewrites the entry of the child alone.
  have parentHere (entry : Task) : ((machine.setTask parent
      (some { task with status := .forking child flags })).setTask child
        (some entry)).tasks parent = some { task with status := .forking child flags } := by
    rw [Machine.setTask_tasks, if_neg apart, Machine.setTask_tasks, if_pos rfl]
  have childHere (entry : Task) : ((machine.setTask parent
      (some { task with status := .forking child flags })).setTask child (some entry)).tasks child =
        some entry := by
    rw [Machine.setTask_tasks, if_pos rfl]
  have copied : Machine.Step platform _ (.copyMm parent child 0) _ :=
    .copyMm (parentHere { task with status := .created parent .duplicated }) rfl (childHere _) rfl
      fun unshared => absurd unshared (by rw [shares]; decide)
  simp only [shares, if_true, Machine.setTask_setTask] at copied
  have attached : Machine.Step platform _ (.attach parent child) _ :=
    .attach (childHere { task with status := .created parent .mmCopied }) rfl
  have cleared : Machine.Step platform _ (.clearTsoMm parent child) _ :=
    .clearTsoMm (childHere { task with status := .created parent .attached }) rfl
  rw [Machine.setTask_setTask] at attached cleared
  exact Run.cons (.dupTaskStruct here running valid fresh)
    (Run.cons copied (Run.cons attached (run_singleton.mpr cleared)))

/-- `INIT_TASK` allocates 40 bytes, and then it comes to a child that can be woken. -/
theorem exists_fork_after_alloc : ∃ events parent machine next,
    Machine.Step Platform.i386 Machine.boot
        (.call 0 7 ⟨.alloc .secondPage 40, ⟨0, some 0x1008⟩⟩) parent ∧
      parent.tasks 0 = some { Task.initTask with tsoMm := 7 } ∧
        Run (Machine.Step Platform.i386) parent events machine ∧
          machine.tasks 0 = some { tsoMm := 7, mm := 0, status := .forking 1 .threadFlags } ∧
            Machine.Step Platform.i386 machine (.wakeUpNewTask 0 1) next ∧
              next = machine.setTask 1 (some { tsoMm := 0, mm := 0, status := .running }) := by
  obtain ⟨outcome, returned, seen⟩ := exists_outcome Platform.i386 9 (Kernel.boot fun _ => 0)
    (.alloc .secondPage 40) (fun outcome => (outcome.answer, outcome.kernel.currentMm))
    (show _ = some (⟨0, some 0x1008⟩, some ⟨0x1000, 0x1000, 32768, 32720⟩) by decide +kernel)
  obtain ⟨answered, mapped⟩ := Prod.mk.inj seen
  have unused : ∀ range ∈ (Machine.boot.spaces 0).mapped,
      0x1000 + Platform.i386.initialSize ≤ range.start ∨
        range.start + range.size ≤ 0x1000 := by
    intro range member
    cases member
  have call : Machine.Step Platform.i386 Machine.boot
      (.call 0 7 ⟨.alloc .secondPage 40, ⟨0, some 0x1008⟩⟩)
      (Machine.boot.commit 0 .initTask 7 outcome) :=
    .call rfl rfl ⟨by decide, by decide⟩ (fun _ => ⟨by decide, rfl, unused⟩) returned answered
  have parentHere : (Machine.boot.commit 0 .initTask 7 outcome).tasks 0 =
      some { Task.initTask with tsoMm := 7 } := by
    rw [Machine.commit_of_some _ _ _ _ mapped]
    rfl
  have childFresh : (Machine.boot.commit 0 .initTask 7 outcome).tasks 1 = none := by
    rw [Machine.commit_tasks _ (by decide)]
    rfl
  have valid : CloneFlags.threadFlags.invalid = false := rfl
  have fork : Run (Machine.Step Platform.i386) _ _ _ :=
    run_fork parentHere rfl valid rfl childFresh
  exact ⟨_, _, _, _, call, parentHere, fork, Machine.withThread_parent _ (by decide) _ _,
    .wakeUpNewTask (Machine.withThread_child _ _ _ _ _) rfl, rfl⟩

theorem exclusive_sample : ∃ events machine next child,
    Run (Machine.Step Platform.i386) Machine.boot events machine ∧
      Machine.Step Platform.i386 machine (.wakeUpNewTask 0 1) next ∧
        (∃ parent, next.Runs 0 parent ∧ parent.tsoMm = 7) ∧
          next.Runs 1 child ∧ child.tsoMm = 0 := by
  obtain ⟨_, _, machine, _, call, _, fork, forking, wake, rfl⟩ := exists_fork_after_alloc
  have run := Run.cons call fork
  obtain ⟨child, runs, null⟩ := (exclusive_of_run Machine.booted_boot run).2.1 0 1 _ wake
  refine ⟨_, machine, _, child, run, wake,
    ⟨{ tsoMm := 7, mm := 0, status := .forking 1 .threadFlags }, ⟨?_, trivial⟩, rfl⟩, runs, null⟩
  rw [Machine.setTask_tasks, if_neg (by decide)]
  exact forking

end TsoAlloc
