/-
This file puts the allocator into a system of many tasks. `current_strategy` is one
variable for all of them; `tso_mm` is a field of each `task_struct` that points to a
record obtained from `kmalloc`; the memory is that of an address space, which several
tasks may share. System calls are atomic. `do_fork` is not: it copies the whole
`task_struct` of the parent, `tso_mm` included, may fail at any exit of `copy_process`,
puts the copy on the task lists, clears its `tso_mm` as the last thing `copy_process`
does, and only then wakes it, while other tasks run between any two of these steps.
-/

import TsoAlloc.TaskRun

namespace TsoAlloc

open Transition

/-! ### Tasks -/

/-- The clone flags that decide whether `copy_process` starts and what `copy_mm` does. -/
structure CloneFlags where
  newNs : Bool
  fs : Bool
  newUser : Bool
  newPid : Bool
  thread : Bool
  sighand : Bool
  vm : Bool
deriving DecidableEq, Repr

/-- The combinations of flags that `copy_process` refuses at its beginning. -/
def CloneFlags.invalid (flags : CloneFlags) : Bool :=
  flags.newNs && flags.fs || flags.newUser && flags.fs || flags.thread && !flags.sighand ||
    flags.sighand && !flags.vm || flags.sighand && (flags.newUser || flags.newPid)

/-- How far `copy_process` has come with a copy. -/
inductive Stage where
  | duplicated
  | mmCopied
  | attached
  | cleared
deriving DecidableEq, Repr

/-- What a task does: it runs, it is inside `do_fork`, or it is a copy of its parent that has not
been woken. -/
inductive Status where
  | running
  | forking (child : Nat) (flags : CloneFlags)
  | created (parent : Nat) (stage : Stage)
deriving DecidableEq, Repr

/-- A task that has been woken. -/
def Status.CanRun : Status → Prop
  | .running => True
  | .forking _ _ => True
  | .created _ _ => False

/-- The fields of `task_struct` that the allocator depends on, and what the task does. -/
structure Task where
  tsoMm : Nat
  mm : Nat
  status : Status
deriving DecidableEq, Repr

/-- `INIT_TASK`, with the address space that its descendants begin with. -/
def Task.initTask : Task where
  tsoMm := 0
  mm := 0
  status := .running

/-- A range that `vm_mmap` has mapped. -/
structure Range where
  start : Nat
  size : Nat
deriving DecidableEq, Repr

/-- `mm_struct`: the memory and what is mapped in it. -/
structure Space where
  memory : ByteMemory
  mapped : List Range

/-- The strategy, the tasks by their pids, the records by their addresses, and the address
spaces. -/
structure Machine where
  currentStrategy : BitVec 32
  tasks : Nat → Option Task
  objects : Nat → Option TsoMmMapping
  spaces : Nat → Space

namespace Machine

/-- What the system calls of a task work on. -/
def view (machine : Machine) (task : Task) : Kernel where
  currentStrategy := machine.currentStrategy
  currentMm := if task.tsoMm = 0 then none else machine.objects task.tsoMm
  memory := (machine.spaces task.mm).memory

/-- The system with another entry for one pid. -/
def setTask (machine : Machine) (pid : Nat) (task : Option Task) : Machine :=
  { machine with tasks := Function.update machine.tasks pid task }

/-- A task that has been woken. -/
def Runs (machine : Machine) (pid : Nat) (task : Task) : Prop :=
  machine.tasks pid = some task ∧ task.status.CanRun

/-- The system before any task has done anything: `INIT_TASK` alone, and `FIRST_FIT`. -/
structure Booted (machine : Machine) : Prop where
  strategy : machine.currentStrategy = AllocationStrategy.firstFit.value
  tasks : machine.tasks = fun pid => if pid = 0 then some Task.initTask else none
  objects : ∀ object, machine.objects object = none

/-- The system after a system call of a task. When the call has set up a record, it is the object
that `kmalloc` returned, and `vm_mmap` has mapped its range. -/
def commit (machine : Machine) (pid : Nat) (task : Task) (object : Nat) (outcome : Outcome) :
    Machine :=
  let space := machine.spaces task.mm
  match outcome.kernel.currentMm with
  | none =>
    { machine with
      currentStrategy := outcome.kernel.currentStrategy
      spaces := Function.update machine.spaces task.mm
        { space with memory := outcome.kernel.memory } }
  | some mm =>
    let pointer := if task.tsoMm = 0 then object else task.tsoMm
    { currentStrategy := outcome.kernel.currentStrategy
      tasks := Function.update machine.tasks pid (some { task with tsoMm := pointer })
      objects := Function.update machine.objects pointer (some mm)
      spaces := Function.update machine.spaces task.mm
        { memory := outcome.kernel.memory
          mapped := if task.tsoMm = 0 then ⟨mm.start, mm.size⟩ :: space.mapped
            else space.mapped } }

end Machine

/-! ### Steps -/

/-- A step of one task. Each step of `do_fork` is one event of the parent or of its copy. -/
inductive MachineEvent where
  | rejectFork (parent : Nat)
  | dupTaskStruct (parent child : Nat) (flags : CloneFlags)
  | copyMm (parent child space : Nat)
  | attach (parent child : Nat)
  | failFork (parent child : Nat)
  | clearTsoMm (parent child : Nat)
  | wakeUpNewTask (parent child : Nat)
  | returnFork (parent : Nat)
  | call (pid object : Nat) (event : Event)
deriving DecidableEq, Repr

section

variable (platform : Platform)

/-- When an allocation sets up a record, `kmalloc` returns an object not in use, and `vm_mmap` a
range disjoint from all that are mapped. -/
def Machine.Provides (machine : Machine) (task : Task) (object : Nat) : Call → Prop
  | .alloc environment _ => task.tsoMm = 0 →
    object ≠ 0 ∧ machine.objects object = none ∧
      ∀ range ∈ (machine.spaces task.mm).mapped,
        environment.vmMmap + platform.initialSize ≤ range.start ∨
          range.start + range.size ≤ environment.vmMmap
  | .free _ => True
  | .switchStrategy _ => True

/-- The steps of the system. -/
inductive Machine.Step : Machine → MachineEvent → Machine → Prop
  /-- `copy_process` fails before it has a copy. -/
  | rejectFork {machine : Machine} {parent : Nat} {task : Task} :
    machine.tasks parent = some task → task.status = .running →
      Step machine (.rejectFork parent) machine
  /-- `dup_task_struct`: `*dst = *src`. -/
  | dupTaskStruct {machine : Machine} {parent child : Nat} {task : Task} {flags : CloneFlags} :
    machine.tasks parent = some task → task.status = .running → flags.invalid = false →
      machine.tasks child = none →
        Step machine (.dupTaskStruct parent child flags)
          ((machine.setTask parent (some { task with status := .forking child flags })).setTask
            child (some { task with status := .created parent .duplicated }))
  /-- `copy_mm`: the copy shares the address space of the parent or gets a private copy of it. -/
  | copyMm {machine : Machine} {parent child space : Nat} {task copy : Task}
      {flags : CloneFlags} :
    machine.tasks parent = some task → task.status = .forking child flags →
      machine.tasks child = some copy → copy.status = .created parent .duplicated →
        (flags.vm = false → ∀ pid other, machine.tasks pid = some other → other.mm ≠ space) →
          Step machine (.copyMm parent child space)
            { (machine.setTask child (some { copy with
                mm := if flags.vm then task.mm else space
                status := .created parent .mmCopied })) with
              spaces := if flags.vm then machine.spaces
                else Function.update machine.spaces space (machine.spaces task.mm) }
  /-- The copy is put on the task lists. -/
  | attach {machine : Machine} {parent child : Nat} {copy : Task} :
    machine.tasks child = some copy → copy.status = .created parent .mmCopied →
      Step machine (.attach parent child)
        (machine.setTask child (some { copy with status := .created parent .attached }))
  /-- One of the exits of `copy_process` before the copy is on the task lists. -/
  | failFork {machine : Machine} {parent child : Nat} {task copy : Task} {flags : CloneFlags}
      {stage : Stage} :
    machine.tasks parent = some task → task.status = .forking child flags →
      machine.tasks child = some copy → copy.status = .created parent stage →
        stage = .duplicated ∨ stage = .mmCopied →
          Step machine (.failFork parent child)
            ((machine.setTask parent (some { task with status := .running })).setTask child none)
  /-- `p->tso_mm = NULL`, the last thing `copy_process` does. -/
  | clearTsoMm {machine : Machine} {parent child : Nat} {copy : Task} :
    machine.tasks child = some copy → copy.status = .created parent .attached →
      Step machine (.clearTsoMm parent child)
        (machine.setTask child
          (some { copy with tsoMm := 0, status := .created parent .cleared }))
  /-- `wake_up_new_task` -/
  | wakeUpNewTask {machine : Machine} {parent child : Nat} {copy : Task} :
    machine.tasks child = some copy → copy.status = .created parent .cleared →
      Step machine (.wakeUpNewTask parent child)
        (machine.setTask child (some { copy with status := .running }))
  /-- `do_fork` returns; after `CLONE_VFORK` this may be much later. -/
  | returnFork {machine : Machine} {parent child : Nat} {task copy : Task}
      {flags : CloneFlags} :
    machine.tasks parent = some task → task.status = .forking child flags →
      machine.tasks child = some copy → copy.status.CanRun →
        Step machine (.returnFork parent)
          (machine.setTask parent (some { task with status := .running }))
  /-- A system call of the allocator. -/
  | call {machine : Machine} {pid object fuel : Nat} {task : Task} {event : Event}
      {outcome : Outcome} :
    machine.tasks pid = some task → task.status = .running →
      event.call.Legal platform (machine.view task) →
        machine.Provides platform task object event.call →
          invoke platform fuel (machine.view task) event.call = .ok outcome →
            outcome.answer = event.answer →
              Step machine (.call pid object event) (machine.commit pid task object outcome)

end

/-! ### Runs can be computed -/

variable {platform : Platform}

instance (machine : Machine) (task : Task) (object : Nat) :
    (call : Call) → Decidable (machine.Provides platform task object call)
  | .alloc _ _ => inferInstanceAs (Decidable (_ → _))
  | .free _ => .isTrue trivial
  | .switchStrategy _ => .isTrue trivial

/-- Makes calls of tasks one after another, as long as they are legal and return. Each comes with
its task and with the object that `kmalloc` would return. -/
def Machine.execute (platform : Platform) (fuel : Nat) (machine : Machine) :
    List (Nat × Nat × Call) → Option (List MachineEvent × Machine)
  | [] => some ([], machine)
  | (pid, object, call) :: calls =>
    match machine.tasks pid with
    | none => none
    | some task =>
      if task.status = .running ∧ call.Legal platform (machine.view task) ∧
          machine.Provides platform task object call then
        match invoke platform fuel (machine.view task) call with
        | .error _ => none
        | .ok outcome =>
          (execute platform fuel (machine.commit pid task object outcome) calls).map fun rest =>
            (.call pid object ⟨call, outcome.answer⟩ :: rest.1, rest.2)
      else none

/-- Calls that were made are a run. -/
theorem Machine.run_of_execute {fuel : Nat} {machine after : Machine}
    {calls : List (Nat × Nat × Call)} {events : List MachineEvent}
    (executed : machine.execute platform fuel calls = some (events, after)) :
    Run (Machine.Step platform) machine events after := by
  induction calls generalizing machine events with
  | nil =>
    obtain ⟨rfl, rfl⟩ := Prod.mk.inj (Option.some.inj executed)
    exact Run.nil _
  | cons made calls inductionHypothesis =>
    obtain ⟨pid, object, call⟩ := made
    unfold execute at executed
    split at executed
    · cases executed
    rename_i task here
    split at executed
    · rename_i allowed
      obtain ⟨running, legal, provides⟩ := allowed
      split at executed
      · cases executed
      · rename_i outcome returned
        obtain ⟨rest, restExecuted, same⟩ := Option.map_eq_some_iff.mp executed
        obtain ⟨rfl, rfl⟩ := Prod.mk.inj same
        have step : Machine.Step platform machine (.call pid object ⟨call, outcome.answer⟩) _ :=
          .call here running legal provides returned rfl
        exact Run.cons step (inductionHypothesis restExecuted)
    · cases executed

theorem Machine.exists_run (platform : Platform) (fuel : Nat) (machine : Machine)
    (calls : List (Nat × Nat × Call)) {events : List MachineEvent}
    (executed : (machine.execute platform fuel calls).map Prod.fst = some events) :
    ∃ after, Run (Machine.Step platform) machine events after := by
  obtain ⟨⟨found, after⟩, here, rfl⟩ := Option.map_eq_some_iff.mp executed
  exact ⟨after, run_of_execute here⟩

end TsoAlloc
