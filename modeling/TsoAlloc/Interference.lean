/-
This file compares two runs of the system in which one task makes the same calls. The
mapping belongs to the task, but the strategy that steers every placement is one variable
for all tasks, so another program that switches it moves the task's blocks. That is the
only way in: what a task sees of a run are its own calls, each under the strategy in force,
and its answers follow from the calls and from the strategies that its allocations find.
-/

import TsoAlloc.Exclusion

namespace TsoAlloc

open Transition

/-! ### What a task does in a run -/

/-- The strategy in force after an event: `sys_tso_mm_switch_strategy` of any task sets it. -/
def strategyAfter (strategy : BitVec 32) : MachineEvent → BitVec 32
  | .call _ _ ⟨.switchStrategy next, _⟩ => next
  | _ => strategy

/-- A call of the task with the strategy in force. -/
def ownCall (pid : Nat) (strategy : BitVec 32) : MachineEvent → Option (BitVec 32 × Event)
  | .call caller _ event => if caller = pid then some (strategy, event) else none
  | _ => none

/-- The calls of a task in a run, each with the strategy in force when it is made. -/
def callsOf (pid : Nat) : BitVec 32 → List MachineEvent → List (BitVec 32 × Event)
  | _, [] => []
  | strategy, event :: rest =>
    (ownCall pid strategy event).toList ++ callsOf pid (strategyAfter strategy event) rest

/-- A call, and for an allocation the strategy in force. -/
def steering (made : BitVec 32 × Event) : Call × Option (BitVec 32) :=
  (made.2.call,
    match made.2.call with
    | .alloc _ _ => some made.1
    | _ => none)

/-- The calls of a task in a run that starts with `FIRST_FIT`, and the strategies that its
allocations find. -/
def steeringOf (pid : Nat) (events : List MachineEvent) : List (Call × Option (BitVec 32)) :=
  (callsOf pid AllocationStrategy.firstFit.value events).map steering

/-- The calls that a task makes in a run. -/
def requestsOf (pid : Nat) (events : List MachineEvent) : List Call :=
  (callsOf pid AllocationStrategy.firstFit.value events).map fun made => made.2.call

/-- The answers that a task gets in a run. -/
def answersOf (pid : Nat) (events : List MachineEvent) : List Answer :=
  (callsOf pid AllocationStrategy.firstFit.value events).map fun made => made.2.answer

/-- What a call of a task does to its heap under the strategy in force. -/
def HeapCall (platform : Platform) (heap : Option (Heap platform)) (made : BitVec 32 × Event)
    (next : Option (Heap platform)) : Prop :=
  ∃ strategy, ∃ after : TaskState platform, made.1 = AllocationStrategy.value strategy ∧
    TaskState.Step ⟨strategy, heap⟩ made.2 after ∧ after.heap = next

variable {platform : Platform} {machine next : Machine}

/-! ### Tasks go on running -/

namespace Machine

/-- A task that can run still can when an entry is rewritten that is not its own, or its own by one
that can. -/
theorem Runs.setTask {pid other : Nat} {task : Task} {entry : Option Task}
    (runs : machine.Runs pid task)
    (own : pid = other → ∃ new, entry = some new ∧ new.status.CanRun) :
    ∃ task, (machine.setTask other entry).Runs pid task := by
  by_cases same : pid = other
  · obtain ⟨new, rfl, canRun⟩ := own same
    refine ⟨new, ?_, canRun⟩
    rw [setTask_tasks, if_pos same]
  · refine ⟨task, ?_, runs.2⟩
    rw [setTask_tasks, if_neg same]
    exact runs.1

theorem Runs.ne {pid other : Nat} {task copy : Task} (runs : machine.Runs pid task)
    (here : machine.tasks other = some copy) (idle : ¬ copy.status.CanRun) : pid ≠ other := by
  rintro rfl
  obtain rfl := Option.some.inj (runs.1.symm.trans here)
  exact idle runs.2

theorem commit_task (machine : Machine) {pid : Nat} {task : Task} (object : Nat)
    (outcome : Outcome) (here : machine.tasks pid = some task) :
    ∃ pointer, (machine.commit pid task object outcome).tasks pid =
      some { task with tsoMm := pointer } := by
  unfold commit
  split
  · exact ⟨task.tsoMm, here⟩
  · exact ⟨_, Function.update_self _ _ _⟩

/-- No step stops a task that can run. -/
theorem Step.runs {event : MachineEvent} (step : Machine.Step platform machine event next)
    {pid : Nat} {task : Task} (runs : machine.Runs pid task) : ∃ task, next.Runs pid task := by
  have created {parent : Nat} {stage : Stage} {copy : Task}
      (was : copy.status = .created parent stage) : ¬ copy.status.CanRun := by
    rw [was]
    exact id
  cases step with
  | rejectFork here running => exact ⟨task, runs⟩
  | @dupTaskStruct parent child source flags here running valid fresh =>
    obtain ⟨middle, onward⟩ := runs.setTask fun _ =>
      ⟨{ source with status := .forking child flags }, rfl, trivial⟩
    refine onward.setTask fun same => ?_
    rw [← same, runs.1] at fresh
    cases fresh
  | copyMm here forking copyHere was fresh =>
    exact runs.setTask fun same => absurd same (runs.ne copyHere (created was))
  | attach here was => exact runs.setTask fun same => absurd same (runs.ne here (created was))
  | @failFork parent child source _ _ _ here forking copyHere was early =>
    obtain ⟨middle, onward⟩ := runs.setTask fun _ =>
      ⟨{ source with status := .running }, rfl, trivial⟩
    exact onward.setTask fun same => absurd same (runs.ne copyHere (created was))
  | clearTsoMm here was =>
    exact runs.setTask fun same => absurd same (runs.ne here (created was))
  | wakeUpNewTask here was => exact runs.setTask fun _ => ⟨_, rfl, trivial⟩
  | returnFork here forking copyHere woken =>
    exact runs.setTask fun _ => ⟨_, rfl, trivial⟩
  | @call caller object _ source _ outcome here running legal provides returned answered =>
    by_cases same : pid = caller
    · obtain ⟨pointer, entry⟩ := machine.commit_task object outcome here
      refine ⟨{ source with tsoMm := pointer }, ?_, ?_⟩
      · rw [same]
        exact entry
      · show source.status.CanRun
        rw [running]
        trivial
    · exact ⟨task, (machine.commit_tasks same).trans runs.1, runs.2⟩

end Machine

/-! ### What a task sees of a run -/

/-- A task that cannot run has no heap. -/
def Machine.Idle (machine : Machine) (heaps : Nat → Option (Heap platform)) : Prop :=
  ∀ pid, (∀ task, ¬ machine.Runs pid task) → heaps pid = none

theorem TaskState.Step.strategy_eq {task after : TaskState platform} {event : Event}
    (step : task.Step event after) (caller object : Nat) :
    after.strategy.value = strategyAfter task.strategy.value (.call caller object event) := by
  cases step with
  | alloc => rfl
  | free => rfl
  | switchStrategy => rfl

theorem Machine.commit_currentStrategy (machine : Machine) (pid : Nat) (task : Task)
    (object : Nat) (outcome : Outcome) :
    (machine.commit pid task object outcome).currentStrategy =
      outcome.kernel.currentStrategy := by
  unfold Machine.commit
  split <;> rfl

/-- One step: the strategy follows the switches, and the heap of a task follows its own calls. -/
theorem Machine.Owns.observe {heaps : Nat → Option (Heap platform)} (owns : machine.Owns heaps)
    (idle : machine.Idle heaps) {event : MachineEvent}
    (step : Machine.Step platform machine event next) (pid : Nat) :
    ∃ nextHeaps : Nat → Option (Heap platform), next.Owns nextHeaps ∧ next.Idle nextHeaps ∧
      next.currentStrategy = strategyAfter machine.currentStrategy event ∧
        Run (HeapCall platform) (heaps pid) (ownCall pid machine.currentStrategy event).toList
          (nextHeaps pid) := by
  have stillIdle {other : Nat} (stopped : ∀ task, ¬ next.Runs other task) :
      ∀ task, ¬ machine.Runs other task := by
    intro task runs
    obtain ⟨later, laterRuns⟩ := step.runs runs
    exact stopped later laterRuns
  have kept : next.Idle heaps := fun other stopped => idle other (stillIdle stopped)
  cases step with
  | rejectFork here running => exact ⟨heaps, owns, kept, rfl, Run.nil _⟩
  | dupTaskStruct here running valid fresh =>
    exact ⟨heaps, owns.dupTaskStruct here running fresh, kept, rfl, Run.nil _⟩
  | copyMm here forking copyHere was fresh =>
    exact ⟨heaps, owns.copyMm here forking copyHere was fresh, kept, rfl, Run.nil _⟩
  | attach here was => exact ⟨heaps, owns.attach here was, kept, rfl, Run.nil _⟩
  | failFork here forking copyHere was early =>
    exact ⟨heaps, owns.failFork here forking copyHere was, kept, rfl, Run.nil _⟩
  | clearTsoMm here was => exact ⟨heaps, owns.clearTsoMm here was, kept, rfl, Run.nil _⟩
  | @wakeUpNewTask parent child copy here was =>
    have nothing : heaps child = none := by
      refine idle child fun task runs => ?_
      obtain rfl := Option.some.inj (runs.1.symm.trans here)
      have canRun := runs.2
      rw [was] at canRun
      exact canRun
    have woken := owns.wakeUpNewTask here was
    rw [← nothing, Function.update_eq_self] at woken
    exact ⟨heaps, woken, kept, rfl, Run.nil _⟩
  | returnFork here forking copyHere woken =>
    exact ⟨heaps, owns.returnFork here forking copyHere woken, kept, rfl, Run.nil _⟩
  | @call caller object fuel task event outcome here running legal provides returned answered =>
    obtain ⟨strategy, after, follows, taskStep, refined, _, later⟩ :=
      owns.call here running legal provides returned answered
    refine ⟨_, later, fun other stopped => ?_, ?_, ?_⟩
    · have different : other ≠ caller := by
        rintro rfl
        obtain ⟨pointer, entry⟩ := machine.commit_task object outcome here
        exact stopped _ ⟨entry, by show task.status.CanRun; rw [running]; trivial⟩
      rw [Function.update_of_ne different]
      exact kept other stopped
    · rw [Machine.commit_currentStrategy, follows, ← taskStep.strategy_eq]
      exact refined.1
    · dsimp only [ownCall]
      by_cases own : caller = pid
      · subst own
        rw [if_pos rfl, Function.update_self]
        exact run_singleton.mpr ⟨strategy, after, follows, taskStep, rfl⟩
      · rw [if_neg own, Function.update_of_ne (Ne.symm own)]
        exact Run.nil _

/-- What a task sees of a run are its own calls on its own heap; the strategy follows the switches
of all. -/
theorem Machine.Owns.run_callsOf {heaps : Nat → Option (Heap platform)}
    (owns : machine.Owns heaps) (idle : machine.Idle heaps) {events : List MachineEvent}
    (run : Run (Machine.Step platform) machine events next) (pid : Nat) :
    ∃ nextHeaps : Nat → Option (Heap platform), next.Owns nextHeaps ∧
      next.currentStrategy = events.foldl strategyAfter machine.currentStrategy ∧
        Run (HeapCall platform) (heaps pid) (callsOf pid machine.currentStrategy events)
          (nextHeaps pid) := by
  induction run generalizing heaps with
  | nil state => exact ⟨heaps, owns, rfl, Run.nil _⟩
  | cons step rest inductionHypothesis =>
    obtain ⟨middleHeaps, middleOwns, middleIdle, follows, made⟩ := owns.observe idle step pid
    obtain ⟨nextHeaps, nextOwns, strategy, further⟩ := inductionHypothesis middleOwns middleIdle
    rw [follows] at strategy further
    exact ⟨nextHeaps, nextOwns, strategy, run_append.mpr ⟨middleHeaps pid, made, further⟩⟩

/-- From the beginning on, what a task sees of a run are calls on its own heap, which it creates. -/
theorem Machine.Booted.run_callsOf {start : Machine} (booted : start.Booted)
    {events : List MachineEvent} (run : Run (Machine.Step platform) start events machine)
    (pid : Nat) :
    ∃ heaps : Nat → Option (Heap platform), machine.Owns heaps ∧
      machine.currentStrategy =
          events.foldl strategyAfter AllocationStrategy.firstFit.value ∧
        Run (HeapCall platform) none
          (callsOf pid AllocationStrategy.firstFit.value events) (heaps pid) := by
  have owns : start.Owns (fun _ => none : Nat → Option (Heap platform)) := booted.owns
  rw [← booted.strategy]
  exact owns.run_callsOf (fun _ _ => rfl) run pid

/-- While nobody switches to another strategy, `FIRST_FIT` is in force. -/
theorem foldl_strategyAfter {events : List MachineEvent}
    (unswitched : ∀ caller object value answer,
      .call caller object ⟨.switchStrategy value, answer⟩ ∈ events →
        value = AllocationStrategy.firstFit.value) :
    events.foldl strategyAfter AllocationStrategy.firstFit.value =
      AllocationStrategy.firstFit.value := by
  induction events with
  | nil => rfl
  | cons event events inductionHypothesis =>
    have kept : strategyAfter AllocationStrategy.firstFit.value event =
        AllocationStrategy.firstFit.value := by
      unfold strategyAfter
      split
      · exact unswitched _ _ _ _ List.mem_cons_self
      · rfl
    rw [List.foldl_cons, kept]
    exact inductionHypothesis fun caller object value answer member =>
      unswitched caller object value answer (List.mem_cons_of_mem _ member)

/-! ### Two runs -/

/-- A call that is made twice on the same heap has the same answer and the same effect, if for an
allocation the strategy in force is the same. -/
theorem HeapCall.unique {heap left right : Option (Heap platform)} {made other : BitVec 32 × Event}
    (here : HeapCall platform heap made left) (there : HeapCall platform heap other right)
    (same : steering made = steering other) :
    made.2.answer = other.2.answer ∧ left = right := by
  obtain ⟨found, call, answer⟩ := made
  obtain ⟨otherFound, otherCall, otherAnswer⟩ := other
  obtain ⟨strategy, after, rfl, step, rfl⟩ := here
  obtain ⟨otherStrategy, otherAfter, rfl, otherStep, rfl⟩ := there
  obtain ⟨calls, found⟩ := Prod.mk.inj same
  dsimp only at calls found step otherStep ⊢
  cases step with
  | alloc _ _ environment size grants =>
    cases otherStep with
    | alloc _ _ otherEnvironment otherSize otherGrants =>
      obtain ⟨rfl, rfl⟩ := Call.alloc.inj calls
      obtain rfl := AllocationStrategy.value_injective (Option.some.inj found)
      exact ⟨rfl, rfl⟩
    | free => cases calls
    | switchStrategy => cases calls
  | free _ before addr =>
    cases otherStep with
    | alloc => cases calls
    | free _ _ otherAddr =>
      obtain rfl := Call.free.inj calls
      exact ⟨rfl, rfl⟩
    | switchStrategy => cases calls
  | switchStrategy _ later =>
    cases otherStep with
    | alloc => cases calls
    | free => cases calls
    | switchStrategy => exact ⟨rfl, rfl⟩

/-- Calls that are made alike on the same heap have the same answers. -/
theorem answers_eq_of_run {heap left right : Option (Heap platform)}
    {made others : List (BitVec 32 × Event)} (run : Run (HeapCall platform) heap made left)
    (otherRun : Run (HeapCall platform) heap others right)
    (same : made.map steering = others.map steering) :
    (made.map fun call => call.2.answer) = others.map fun call => call.2.answer := by
  induction run generalizing others with
  | nil state =>
    rw [List.map_eq_nil_iff.mp same.symm]
  | cons here rest inductionHypothesis =>
    cases otherRun with
    | nil => cases same
    | cons there otherRest =>
      obtain ⟨first, further⟩ := List.cons.inj same
      obtain ⟨answer, rfl⟩ := here.unique there first
      rw [List.map_cons, List.map_cons, answer, inductionHypothesis otherRest further]

/-- A task that makes the same calls in two runs, and whose allocations find the same strategies in
force, gets the same answers, whatever else happens in the runs. While nobody switches to another
strategy, its allocations get the `FIRST_FIT` placement. -/
theorem answersOf_eq_of_run {start : Machine} {events : List MachineEvent}
    (booted : start.Booted) (run : Run (Machine.Step platform) start events machine) (pid : Nat) :
    (∀ otherStart otherEvents otherMachine, otherStart.Booted →
        Run (Machine.Step platform) otherStart otherEvents otherMachine →
          steeringOf pid events = steeringOf pid otherEvents →
            answersOf pid events = answersOf pid otherEvents) ∧
      ((∀ caller object value answer,
          .call caller object ⟨.switchStrategy value, answer⟩ ∈ events →
            value = AllocationStrategy.firstFit.value) →
        ∀ object environment size answer next, Machine.Step platform machine
          (.call pid object ⟨.alloc environment size, answer⟩) next →
            ∃ task heap, ∃ grants : environment.Grants platform, machine.tasks pid = some task ∧
              (machine.view task).Holds platform heap ∧
                answer = ((heap.getD grants.heap).alloc .firstFit environment size).2) := by
  obtain ⟨heaps, owns, strategy, made⟩ := booted.run_callsOf run pid
  constructor
  · intro otherStart otherEvents otherMachine otherBooted otherRun same
    obtain ⟨_, _, _, otherMade⟩ := otherBooted.run_callsOf otherRun pid
    exact answers_eq_of_run made otherMade same
  · intro unswitched object environment size answer next step
    rw [foldl_strategyAfter unswitched] at strategy
    cases step with
    | @call _ _ _ task _ outcome here running legal provides returned answered =>
      obtain ⟨found, after, follows, taskStep, _⟩ :=
        owns.call here running legal provides returned answered
      obtain rfl := AllocationStrategy.value_injective (strategy.symm.trans follows)
      refine ⟨task, heaps pid, legal.1, here,
        owns.holds pid task (machine.runs_of_running here running), ?_⟩
      generalize heaps pid = heap at taskStep
      cases taskStep with
      | alloc => rfl

/-- A fork of a thread, from its start to its end. -/
theorem run_thread {parent child : Nat} {task : Task} {flags : CloneFlags}
    (here : machine.tasks parent = some task) (running : task.status = .running)
    (valid : flags.invalid = false) (shares : flags.vm = true)
    (fresh : machine.tasks child = none) :
    Run (Machine.Step platform) machine [.dupTaskStruct parent child flags,
        .copyMm parent child 0, .attach parent child, .clearTsoMm parent child,
        .wakeUpNewTask parent child, .returnFork parent]
      (machine.setTask child (some { tsoMm := 0, mm := task.mm, status := .running })) := by
  have apart : parent ≠ child := by
    rintro rfl
    rw [fresh] at here
    cases here
  have forked : Run (Machine.Step platform) machine _ _ := run_fork here running valid shares fresh
  have woken : Machine.Step platform (machine.withThread parent child task flags)
      (.wakeUpNewTask parent child) _ :=
    .wakeUpNewTask (machine.withThread_child parent child task flags) rfl
  have childHere : ((machine.withThread parent child task flags).setTask child
      (some { tsoMm := 0, mm := task.mm, status := .running })).tasks child =
        some { tsoMm := 0, mm := task.mm, status := .running } := by
    rw [Machine.setTask_tasks, if_pos rfl]
  have parentHere : ((machine.withThread parent child task flags).setTask child
      (some { tsoMm := 0, mm := task.mm, status := .running })).tasks parent =
        some { task with status := .forking child flags } := by
    rw [Machine.setTask_tasks, if_neg apart, machine.withThread_parent apart]
  have returned : Machine.Step platform _ (.returnFork parent) _ :=
    .returnFork parentHere rfl childHere trivial
  -- The entry of the parent is again what it was.
  have restored : (((machine.withThread parent child task flags).setTask child
      (some { tsoMm := 0, mm := task.mm, status := .running })).setTask parent
        (some { task with status := .running })) =
          machine.setTask child (some { tsoMm := 0, mm := task.mm, status := .running }) := by
    have same : { task with status := .running } = task := by rw [← running]
    rw [same]
    unfold Machine.withThread Machine.setTask
    congr 1
    dsimp only
    rw [Function.update_idem, Function.update_comm apart.symm, Function.update_idem, ← here,
      Function.update_eq_self]
  rw [← restored]
  exact run_append.mpr ⟨_, forked, Run.cons woken (run_singleton.mpr returned)⟩

/-- A system as it boots, with one thread. -/
def Machine.bootThread : Machine :=
  Machine.boot.setTask 1 (some { tsoMm := 0, mm := 0, status := .running })

/-- The fork of the thread. -/
def bootFork : List MachineEvent :=
  [.dupTaskStruct 0 1 .threadFlags, .copyMm 0 1 0, .attach 0 1, .clearTsoMm 0 1,
    .wakeUpNewTask 0 1, .returnFork 0]

theorem run_bootFork :
    Run (Machine.Step Platform.i386) Machine.boot bootFork Machine.bootThread := by
  have here : Machine.boot.tasks 0 = some Task.initTask := rfl
  have valid : CloneFlags.threadFlags.invalid = false := rfl
  have fresh : Machine.boot.tasks 1 = none := rfl
  exact run_thread here rfl valid rfl fresh

theorem exists_run_bootThread (calls : List (Nat × Nat × Call)) {events : List MachineEvent}
    (executed : (Machine.bootThread.execute Platform.i386 9 calls).map Prod.fst = some events) :
    ∃ machine, Run (Machine.Step Platform.i386) Machine.boot (bootFork ++ events) machine := by
  obtain ⟨machine, run⟩ := Machine.exists_run Platform.i386 9 Machine.bootThread calls executed
  exact ⟨machine, run_append.mpr ⟨Machine.bootThread, run_bootFork, run⟩⟩

/-- A task replaces a block while the thread allocates and switches to and fro. -/
theorem answersOf_eq_sample : ∃ events machine otherEvents otherMachine,
    Run (Machine.Step Platform.i386) Machine.boot events machine ∧
      Run (Machine.Step Platform.i386) Machine.boot otherEvents otherMachine ∧
        requestsOf 0 events = [.alloc .secondPage 100, .free 0x1008, .alloc .secondPage 8] ∧
          answersOf 0 events = answersOf 0 otherEvents ∧ events ≠ otherEvents := by
  obtain ⟨machine, run⟩ := exists_run_bootThread
    [(0, 7, .alloc .secondPage 100), (0, 7, .free 0x1008), (0, 7, .alloc .secondPage 8)]
    (show _ = some [.call 0 7 ⟨.alloc .secondPage 100, ⟨0, some 0x1008⟩⟩,
      .call 0 7 ⟨.free 0x1008, ⟨0, none⟩⟩,
      .call 0 7 ⟨.alloc .secondPage 8, ⟨0, some 0x1008⟩⟩] by decide +kernel)
  obtain ⟨otherMachine, otherRun⟩ := exists_run_bootThread
    [(0, 7, .alloc .secondPage 100), (1, 8, .switchStrategy 2), (0, 7, .free 0x1008),
      (1, 8, .switchStrategy 0), (0, 7, .alloc .secondPage 8)]
    (show _ = some [.call 0 7 ⟨.alloc .secondPage 100, ⟨0, some 0x1008⟩⟩,
      .call 1 8 ⟨.switchStrategy 2, ⟨0, none⟩⟩, .call 0 7 ⟨.free 0x1008, ⟨0, none⟩⟩,
      .call 1 8 ⟨.switchStrategy 0, ⟨0, none⟩⟩,
      .call 0 7 ⟨.alloc .secondPage 8, ⟨0, some 0x1008⟩⟩] by decide +kernel)
  exact ⟨_, machine, _, otherMachine, run, otherRun, rfl,
    (answersOf_eq_of_run Machine.booted_boot run 0).1 _ _ _ Machine.booted_boot otherRun
      (by decide +kernel), by decide⟩

/-- A task that never switches replaces a large block by a small one, and in one of two runs the
thread has switched to `WORST_FIT` before. -/
theorem not_answersOf_eq_switched : ¬ ∀ events machine otherEvents otherMachine,
    Run (Machine.Step Platform.i386) Machine.boot events machine →
      Run (Machine.Step Platform.i386) Machine.boot otherEvents otherMachine →
        requestsOf 0 events = requestsOf 0 otherEvents →
          answersOf 0 events = answersOf 0 otherEvents := by
  intro claimed
  obtain ⟨machine, run⟩ := exists_run_bootThread
    [(0, 7, .alloc .secondPage 100), (0, 7, .alloc .secondPage 8), (0, 7, .free 0x1008),
      (0, 7, .alloc .secondPage 8)]
    (show _ = some [.call 0 7 ⟨.alloc .secondPage 100, ⟨0, some 0x1008⟩⟩,
      .call 0 7 ⟨.alloc .secondPage 8, ⟨0, some 0x1074⟩⟩, .call 0 7 ⟨.free 0x1008, ⟨0, none⟩⟩,
      .call 0 7 ⟨.alloc .secondPage 8, ⟨0, some 0x1008⟩⟩] by decide +kernel)
  obtain ⟨otherMachine, otherRun⟩ := exists_run_bootThread
    [(0, 7, .alloc .secondPage 100), (0, 7, .alloc .secondPage 8), (0, 7, .free 0x1008),
      (1, 8, .switchStrategy 2), (0, 7, .alloc .secondPage 8)]
    (show _ = some [.call 0 7 ⟨.alloc .secondPage 100, ⟨0, some 0x1008⟩⟩,
      .call 0 7 ⟨.alloc .secondPage 8, ⟨0, some 0x1074⟩⟩, .call 0 7 ⟨.free 0x1008, ⟨0, none⟩⟩,
      .call 1 8 ⟨.switchStrategy 2, ⟨0, none⟩⟩,
      .call 0 7 ⟨.alloc .secondPage 8, ⟨0, some 0x1084⟩⟩] by decide +kernel)
  have same := claimed _ _ _ _ run otherRun rfl
  exact absurd same (by decide)

end TsoAlloc
