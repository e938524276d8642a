/-
This file follows single bytes of memory through a system of many tasks, in which forks,
calls of the allocator and writes of the tasks themselves take turns in any order. A task
writes what it likes, except over the headers of live regions. Then a byte of a live block
holds what was last written to it, however many tasks share the address space; and a byte
of any other mapped range, such as a block that a forked child finds in its copy of the
parent's memory, is never changed by the allocator at all.
-/

import TsoAlloc.Interference

namespace TsoAlloc

open Transition

/-! ### Writes of the tasks -/

/-- What happens in the system: a step of a task, or a write of a task to one byte of its address
space. -/
inductive SystemEvent where
  | step (event : MachineEvent)
  | write (space byte : Nat) (value : UInt8)
deriving DecidableEq

namespace Machine

/-- The system with another byte in one address space. -/
def write (machine : Machine) (space byte : Nat) (value : UInt8) : Machine :=
  { machine with
    spaces := Function.update machine.spaces space { machine.spaces space with
      memory := Function.update (machine.spaces space).memory byte value } }

/-- The byte lies in no header of a live region of a task that uses the address space. -/
def Spares (platform : Platform) (machine : Machine) (space byte : Nat) : Prop :=
  ∀ pid task mm regions, machine.Runs pid task → task.mm = space → task.tsoMm ≠ 0 →
    machine.objects task.tsoMm = some mm →
      Listed platform (machine.spaces space).memory mm.firstRegion regions →
        ∀ region ∈ regions, byte < region.addr ∨ region.payload platform ≤ byte

/-- A step of the system: writes spare the headers of live regions. -/
def SystemStep (platform : Platform) (before : Machine) (event : SystemEvent) (after : Machine) :
    Prop :=
  match event with
  | .step event => before.Step platform event after
  | .write space byte value => (∃ pid task, before.Runs pid task ∧ task.mm = space) ∧
      before.Spares platform space byte ∧ after = before.write space byte value

end Machine

/-- What a byte of an address space holds when the tasks have written to it. -/
def lastWritten (space byte : Nat) : UInt8 → List SystemEvent → UInt8 :=
  List.foldl fun value event =>
    match event with
    | .step _ => value
    | .write written other new => if written = space ∧ other = byte then new else value

variable {platform : Platform} {machine next : Machine} {heaps : Nat → Option (Heap platform)}

/-- If every step keeps a property, and changes the bytes of a range as they are written, then so
does a run. -/
theorem run_lastWritten (Holds : Machine → Prop) {space low high : Nat} {events : List SystemEvent}
    (run : Run (Machine.SystemStep platform) machine events next) (start : Holds machine)
    (kept : ∀ before event after, event ∈ events → Holds before →
      before.SystemStep platform event after → Holds after ∧
        ∀ byte, low ≤ byte → byte < high → (after.spaces space).memory byte =
          lastWritten space byte ((before.spaces space).memory byte) [event]) :
    Holds next ∧ ∀ byte, low ≤ byte → byte < high → (next.spaces space).memory byte =
      lastWritten space byte ((machine.spaces space).memory byte) events := by
  induction run with
  | nil state => exact ⟨start, fun _ _ _ => rfl⟩
  | @cons first second last event events here rest inductionHypothesis =>
    obtain ⟨middle, bytes⟩ := kept first event second List.mem_cons_self start here
    obtain ⟨holds, further⟩ := inductionHypothesis middle fun before later after member =>
      kept before later after (List.mem_cons_of_mem _ member)
    refine ⟨holds, fun byte above below => ?_⟩
    rw [further byte above below, bytes byte above below]
    rfl

/-! ### Writes keep what tasks own -/

namespace Machine

theorem write_memory (machine : Machine) (space byte : Nat) (value : UInt8) (other target : Nat) :
    ((machine.write space byte value).spaces other).memory target =
      if space = other ∧ byte = target then value else (machine.spaces other).memory target := by
  unfold write
  by_cases here : other = space
  · subst here
    by_cases same : target = byte
    · simp [same]
    · simp [same, Ne.symm same]
  · simp [here, Ne.symm here]

theorem write_mapped (machine : Machine) (space byte : Nat) (value : UInt8) (other : Nat) :
    ((machine.write space byte value).spaces other).mapped = (machine.spaces other).mapped := by
  unfold write
  by_cases here : other = space
  · subst here
    simp
  · simp [here]

/-- A write that spares the headers leaves every task with what it owns. -/
theorem Owns.write (owns : machine.Owns heaps) {space byte : Nat}
    (spares : machine.Spares platform space byte) (value : UInt8) :
    (machine.write space byte value).Owns heaps where
  strategy := owns.strategy
  recorded := owns.recorded
  holds := by
    intro pid task runs
    have runs : machine.Runs pid task := runs
    have held := owns.holds pid task runs
    cases found : heaps pid with
    | none =>
      rw [found] at held
      exact held
    | some heap =>
      rw [found] at held
      obtain ⟨mm, mapped, represents⟩ := held
      refine ⟨mm, mapped, represents.transport ?_⟩
      intro region member target low high
      show ((machine.write space byte value).spaces task.mm).memory target = _
      rw [write_memory, if_neg]
      · rfl
      rintro ⟨rfl, rfl⟩
      have pointer := owns.tsoMm_ne_zero runs found
      have recorded : machine.objects task.tsoMm = some mm := (if_neg pointer).symm.trans mapped
      have outside := spares pid task mm heap.regions runs rfl pointer recorded represents.listed
        region member
      unfold Region.payload at outside
      omega
  exclusive := owns.exclusive
  mapped := by
    intro pid task heap runs found
    rw [write_mapped]
    exact owns.mapped pid task heap runs found
  apart := owns.apart
  copies := owns.copies

/-! ### Steps and the bytes outside headers -/

/-- `copy_mm` has given the copy its address space, or the task is no copy. -/
def Settled : Status → Prop
  | .running => True
  | .forking _ _ => True
  | .created _ stage => stage ≠ .duplicated

/-- The pid has a task with an address space of its own or shared with others. -/
def Inhabits (machine : Machine) (pid space : Nat) : Prop :=
  ∃ task, machine.tasks pid = some task ∧ task.mm = space ∧ Settled task.status

theorem Runs.inhabits {pid : Nat} {task : Task} (runs : machine.Runs pid task) :
    machine.Inhabits pid task.mm := by
  refine ⟨task, runs.1, rfl, ?_⟩
  have canRun := runs.2
  cases status : task.status with
  | running => trivial
  | forking child flags => trivial
  | created parent stage =>
    rw [status] at canRun
    exact canRun.elim

namespace Inhabits

variable {pid other space : Nat} {task : Task}

theorem mm_eq (inhabits : machine.Inhabits pid space) (same : pid = other)
    (here : machine.tasks other = some task) : task.mm = space := by
  obtain ⟨found, there, mm, _⟩ := inhabits
  rw [same, here] at there
  rwa [Option.some.inj there]

theorem ne {parent : Nat} (inhabits : machine.Inhabits pid space)
    (here : machine.tasks other = some task)
    (was : task.status = .created parent .duplicated) : pid ≠ other := by
  intro same
  obtain ⟨found, there, _, settled⟩ := inhabits
  rw [same, here] at there
  obtain rfl := Option.some.inj there
  rw [was] at settled
  exact settled rfl

/-- An entry keeps its address space when another entry is rewritten, or its own by one with the
same address space. -/
theorem setTask {entry : Option Task} (inhabits : machine.Inhabits pid space)
    (own : pid = other → ∃ old new, machine.tasks other = some old ∧ entry = some new ∧
      new.mm = old.mm ∧ Settled new.status) :
    (machine.setTask other entry).Inhabits pid space := by
  by_cases same : pid = other
  · obtain ⟨old, new, here, rfl, mm, settled⟩ := own same
    refine ⟨new, ?_, mm.trans (inhabits.mm_eq same here), settled⟩
    rw [setTask_tasks, if_pos same]
  · obtain ⟨task, here, mm, settled⟩ := inhabits
    refine ⟨task, ?_, mm, settled⟩
    rw [setTask_tasks, if_neg same]
    exact here

end Inhabits

/-- A task keeps its address space, unless `copy_process` fails and gives it up. -/
theorem Step.inhabits {event : MachineEvent} (step : Machine.Step platform machine event next)
    {pid space : Nat} (inhabits : machine.Inhabits pid space)
    (stays : ∀ parent, event ≠ .failFork parent pid) : next.Inhabits pid space := by
  cases step with
  | rejectFork here running => exact inhabits
  | @dupTaskStruct parent child task flags here running valid fresh =>
    have onward := inhabits.setTask fun same : pid = parent =>
      ⟨task, { task with status := .forking child flags }, here, rfl, rfl, trivial⟩
    refine onward.setTask fun same => ?_
    obtain ⟨found, there, _⟩ := inhabits
    rw [same, fresh] at there
    cases there
  | copyMm here forking copyHere was fresh =>
    exact inhabits.setTask fun same => absurd same (inhabits.ne copyHere was)
  | attach here was =>
    exact inhabits.setTask fun same =>
      ⟨_, _, here, rfl, rfl, show Stage.attached ≠ .duplicated by decide⟩
  | @failFork parent child task copy _ _ here forking copyHere was early =>
    have onward := inhabits.setTask fun same : pid = parent =>
      ⟨task, { task with status := .running }, here, rfl, rfl, trivial⟩
    exact onward.setTask fun same => absurd (congrArg _ same.symm) (stays parent)
  | clearTsoMm here was =>
    exact inhabits.setTask fun same =>
      ⟨_, _, here, rfl, rfl, show Stage.cleared ≠ .duplicated by decide⟩
  | wakeUpNewTask here was =>
    exact inhabits.setTask fun same => ⟨_, _, here, rfl, rfl, trivial⟩
  | returnFork here forking copyHere woken =>
    exact inhabits.setTask fun same => ⟨_, _, here, rfl, rfl, trivial⟩
  | @call caller object _ task _ outcome here running legal provides returned answered =>
    by_cases same : pid = caller
    · obtain ⟨pointer, entry⟩ := machine.commit_task object outcome here
      have mm : task.mm = space := inhabits.mm_eq same here
      have settled : Settled task.status := by
        rw [running]
        trivial
      subst same
      exact ⟨_, entry, mm, settled⟩
    · obtain ⟨found, there, rest⟩ := inhabits
      exact ⟨found, (machine.commit_tasks same).trans there, rest⟩

/-- A step of `do_fork` changes no address space that a task has. -/
theorem Step.spaces_eq {event : MachineEvent} (step : Machine.Step platform machine event next)
    (noCall : ∀ caller object made, event ≠ .call caller object made) {pid space : Nat}
    (inhabits : machine.Inhabits pid space) : next.spaces space = machine.spaces space := by
  cases step with
  | @copyMm parent child other task copy flags here forking copyHere was fresh =>
    dsimp only
    split
    · rfl
    · rename_i unshared
      obtain ⟨found, there, mm, _⟩ := inhabits
      refine Function.update_of_ne ?_ _ _
      rw [← mm]
      exact fresh (Bool.eq_false_of_not_eq_true unshared) pid found there
  | call => exact absurd rfl (noCall _ _ _)
  | _ => rfl

/-- A step of `do_fork` leaves the heaps of all tasks that can run. -/
theorem Owns.fork (owns : machine.Owns heaps) {event : MachineEvent}
    (step : Machine.Step platform machine event next)
    (noCall : ∀ caller object made, event ≠ .call caller object made) :
    ∃ nextHeaps : Nat → Option (Heap platform), next.Owns nextHeaps ∧
      ∀ pid task, machine.Runs pid task → nextHeaps pid = heaps pid := by
  cases step with
  | rejectFork here running => exact ⟨heaps, owns, fun _ _ _ => rfl⟩
  | dupTaskStruct here running valid fresh =>
    exact ⟨heaps, owns.dupTaskStruct here running fresh, fun _ _ _ => rfl⟩
  | copyMm here forking copyHere was fresh =>
    exact ⟨heaps, owns.copyMm here forking copyHere was fresh, fun _ _ _ => rfl⟩
  | attach here was => exact ⟨heaps, owns.attach here was, fun _ _ _ => rfl⟩
  | failFork here forking copyHere was early =>
    exact ⟨heaps, owns.failFork here forking copyHere was, fun _ _ _ => rfl⟩
  | clearTsoMm here was => exact ⟨heaps, owns.clearTsoMm here was, fun _ _ _ => rfl⟩
  | @wakeUpNewTask parent child copy here was =>
    refine ⟨_, owns.wakeUpNewTask here was, fun pid task runs => ?_⟩
    have idle : ¬ copy.status.CanRun := by
      rw [was]
      exact id
    exact Function.update_of_ne (runs.ne here idle) _ _
  | returnFork here forking copyHere woken =>
    exact ⟨heaps, owns.returnFork here forking copyHere woken, fun _ _ _ => rfl⟩
  | call => exact absurd rfl (noCall _ _ _)

theorem commit_memory (machine : Machine) (pid : Nat) (task : Task) (object : Nat)
    (outcome : Outcome) :
    ((machine.commit pid task object outcome).spaces task.mm).memory = outcome.kernel.memory := by
  unfold commit
  split
  · dsimp only
    rw [Function.update_self]
  · dsimp only
    rw [Function.update_self]

/-- What is mapped stays mapped. -/
theorem mem_mapped_commit (machine : Machine) (pid : Nat) (task : Task) (object : Nat)
    (outcome : Outcome) {range : Range} (member : range ∈ (machine.spaces task.mm).mapped) :
    range ∈ ((machine.commit pid task object outcome).spaces task.mm).mapped := by
  unfold commit
  split
  · dsimp only
    rw [Function.update_self]
    exact member
  · dsimp only
    rw [Function.update_self]
    dsimp only
    split
    · exact List.mem_cons_of_mem _ member
    · exact member

/-- What a call of a task does to the system. -/
structure CallEffect (machine next : Machine) (heaps : Nat → Option (Heap platform))
    (caller object : Nat) (made : Event) (task : Task) (strategy : AllocationStrategy)
    (after : TaskState platform) : Prop where
  runs : machine.Runs caller task
  provides : machine.Provides platform task object made.call
  step : TaskState.Step ⟨strategy, heaps caller⟩ made after
  owns : next.Owns (Function.update heaps caller after.heap)
  headers : HeadersOnly platform
    ((⟨strategy, heaps caller⟩ : TaskState platform).regions ++ after.regions)
    (machine.spaces task.mm).memory (next.spaces task.mm).memory
  tasks : ∀ other, other ≠ caller → next.tasks other = machine.tasks other
  others : ∀ space, space ≠ task.mm → next.spaces space = machine.spaces space
  mapped : ∀ range ∈ (machine.spaces task.mm).mapped, range ∈ (next.spaces task.mm).mapped

theorem Owns.callEffect (owns : machine.Owns heaps) {caller object : Nat} {made : Event}
    (step : Machine.Step platform machine (.call caller object made) next) :
    ∃ task strategy, ∃ after : TaskState platform,
      CallEffect machine next heaps caller object made task strategy after := by
  cases step with
  | @call _ _ _ task _ outcome here running legal provides returned answered =>
    obtain ⟨strategy, after, _, taskStep, refined, headers, kept⟩ :=
      owns.call here running legal provides returned answered
    rw [← machine.commit_memory caller task object outcome] at headers
    exact ⟨task, strategy, after, machine.runs_of_running here running, provides, taskStep, kept,
      headers, fun other apart => machine.commit_tasks apart,
      fun space apart => machine.commit_spaces apart,
      fun range member => machine.mem_mapped_commit caller task object outcome member⟩

namespace CallEffect

variable {caller object : Nat} {made : Event} {task : Task} {strategy : AllocationStrategy}
  {after : TaskState platform}

/-- A call changes no byte outside the range of the heap that it leaves. -/
theorem memory_eq (effect : CallEffect machine next heaps caller object made task strategy after)
    {space byte : Nat}
    (outside : task.mm = space → ∀ heap, after.heap = some heap →
      byte < heap.start ∨ heap.stop ≤ byte) :
    (next.spaces space).memory byte = (machine.spaces space).memory byte := by
  by_cases same : task.mm = space
  · subst same
    refine effect.headers byte fun region member => ?_
    cases left : after.heap with
    | none =>
      have before := effect.step.heap_eq_none left
      unfold TaskState.regions at member
      rw [left, before] at member
      cases member
    | some heap =>
      obtain ⟨low, high⟩ := effect.step.regions_within left region member
      have payload := region.payload_le_top platform
      rcases outside rfl heap left with below | above
      · exact Or.inl (by omega)
      · exact Or.inr (by omega)
  · rw [effect.others space (Ne.symm same)]

theorem apart (effect : CallEffect machine next heaps caller object made task strategy after)
    (owns : machine.Owns heaps) {heap : Heap platform} (left : after.heap = some heap)
    {other : Nat} {otherTask : Task} {otherHeap : Heap platform}
    (runs : machine.Runs other otherTask) (different : other ≠ caller)
    (shared : otherTask.mm = task.mm) (found : heaps other = some otherHeap) :
    heap.stop ≤ otherHeap.start ∨ otherHeap.stop ≤ heap.start :=
  (owns.fresh effect.runs effect.provides effect.step left).2.2 other otherTask otherHeap runs
    different shared found

/-- The heap that a call leaves is apart from every range that was mapped, other than its own. -/
theorem apart_of_mapped
    (effect : CallEffect machine next heaps caller object made task strategy after)
    (owns : machine.Owns heaps) {heap : Heap platform} (left : after.heap = some heap)
    {range : Range} (member : range ∈ (machine.spaces task.mm).mapped)
    (foreign : ∀ before, heaps caller = some before →
      before.stop ≤ range.start ∨ range.start + range.size ≤ before.start) :
    heap.stop ≤ range.start ∨ range.start + range.size ≤ heap.start := by
  rcases effect.step.start_eq left with
    ⟨before, found, same⟩ | ⟨none, environment, size, alloc, there⟩
  · have apart := foreign before found
    unfold Layout.stop at apart ⊢
    rwa [same]
  · have provides := effect.provides
    rw [alloc] at provides
    obtain ⟨_, _, disjoint⟩ := provides (owns.tsoMm_eq_zero effect.runs none)
    unfold Layout.stop
    rw [there]
    exact disjoint range member

end CallEffect

end Machine

/-- A region that is not freed stays. -/
theorem TaskState.Step.mem_regions {task after : TaskState platform} {event : Event}
    (step : task.Step event after) {region : Region} (member : region ∈ task.regions)
    (unfreed : event.call ≠ .free (region.payload platform)) : region ∈ after.regions := by
  cases step with
  | alloc strategy before environment size grants =>
    rw [← TaskState.regions_getD strategy before grants] at member
    cases chosen : (before.getD grants.heap).choose strategy (platform.headerSize + size) with
    | none =>
      rw [Heap.alloc_of_none chosen]
      exact member
    | some room =>
      rw [Heap.alloc_of_some chosen]
      exact mem_insertRegion.mpr (Or.inr member)
  | free strategy before addr =>
    refine List.mem_filter.mpr ⟨member, ?_⟩
    rw [decide_eq_true_eq]
    rintro rfl
    exact unfreed rfl
  | switchStrategy strategy other before => exact member

namespace Machine

/-- A region of the caller that the call does not free stays live, with its bytes. -/
theorem CallEffect.keeps_region {caller object : Nat} {made : Event} {task : Task}
    {strategy : AllocationStrategy} {after : TaskState platform}
    (effect : CallEffect machine next heaps caller object made task strategy after)
    {heap : Heap platform} (found : heaps caller = some heap) {region : Region}
    (member : region ∈ heap.regions) (unfreed : made.call ≠ .free (region.payload platform)) :
    (∃ left, after.heap = some left ∧ region ∈ left.regions) ∧
      ∀ byte, region.payload platform ≤ byte → byte < region.top platform →
        (next.spaces task.mm).memory byte = (machine.spaces task.mm).memory byte := by
  have before : region ∈ (⟨strategy, heaps caller⟩ : TaskState platform).regions := by
    unfold TaskState.regions
    rw [found]
    exact member
  have live := effect.step.mem_regions before unfreed
  refine ⟨?_, fun byte low high => effect.headers.payload before live low high⟩
  unfold TaskState.regions at live
  cases left : after.heap with
  | none =>
    rw [left] at live
    cases live
  | some heap =>
    rw [left] at live
    exact ⟨heap, rfl, live⟩

theorem Step.runs_mm {event : MachineEvent} (step : Machine.Step platform machine event next)
    {pid : Nat} {task : Task} (runs : machine.Runs pid task) :
    ∃ later, next.Runs pid later ∧ later.mm = task.mm := by
  obtain ⟨later, laterRuns⟩ := step.runs runs
  have stays (parent : Nat) : event ≠ .failFork parent pid := by
    rintro rfl
    cases step with
    | @failFork _ _ _ copy _ stage here forking copyHere was early =>
      have idle : ¬ copy.status.CanRun := by
        rw [was]
        exact id
      exact runs.ne copyHere idle rfl
  exact ⟨later, laterRuns, (step.inhabits runs.inhabits stays).mm_eq rfl laterRuns.1⟩

theorem Owns.systemStep (owns : machine.Owns heaps) {event : SystemEvent}
    (step : machine.SystemStep platform event next) :
    ∃ nextHeaps : Nat → Option (Heap platform), next.Owns nextHeaps := by
  cases event with
  | step event => exact owns.step step
  | write space byte value =>
    obtain ⟨_, spares, rfl⟩ := step
    exact ⟨heaps, owns.write spares value⟩

/-! ### Live blocks -/

/-- Every task owns its heap, and the heap of one of them has the region. -/
def HasRegion (machine : Machine) (heaps : Nat → Option (Heap platform)) (pid space : Nat)
    (region : Region) : Prop :=
  machine.Owns heaps ∧ ∃ task heap, machine.Runs pid task ∧ task.mm = space ∧
    heaps pid = some heap ∧ region ∈ heap.regions

/-- A region that its owner does not free stays live in every step, with its bytes. -/
theorem HasRegion.step {pid space : Nat} {region : Region}
    (has : machine.HasRegion heaps pid space region) {event : MachineEvent}
    (step : Machine.Step platform machine event next)
    (unfreed : ∀ object answer,
      event ≠ .call pid object ⟨.free (region.payload platform), answer⟩) :
    ∃ nextHeaps : Nat → Option (Heap platform), next.HasRegion nextHeaps pid space region ∧
      ∀ byte, region.payload platform ≤ byte → byte < region.top platform →
        (next.spaces space).memory byte = (machine.spaces space).memory byte := by
  obtain ⟨owns, task, heap, runs, rfl, found, member⟩ := has
  obtain ⟨later, laterRuns, mm⟩ := step.runs_mm runs
  by_cases noCall : ∀ caller object made, event ≠ .call caller object made
  · obtain ⟨nextHeaps, kept, same⟩ := owns.fork step noCall
    refine ⟨nextHeaps, ⟨kept, later, heap, laterRuns, mm, ?_, member⟩, fun byte _ _ => ?_⟩
    · rw [same pid task runs, found]
    · rw [step.spaces_eq noCall runs.inhabits]
  · push Not at noCall
    obtain ⟨caller, object, made, rfl⟩ := noCall
    obtain ⟨callerTask, strategy, after, effect⟩ := owns.callEffect step
    by_cases own : pid = caller
    · subst own
      obtain rfl := Option.some.inj (runs.1.symm.trans effect.runs.1)
      obtain ⟨⟨afterHeap, left, live⟩, bytes⟩ := effect.keeps_region found member fun freed =>
        unfreed object made.answer (by rw [← freed])
      exact ⟨_, ⟨effect.owns, later, afterHeap, laterRuns, mm,
        (Function.update_self _ _ _).trans left, live⟩, bytes⟩
    · refine ⟨_, ⟨effect.owns, later, heap, laterRuns, mm,
        (Function.update_of_ne own _ _).trans found, member⟩, fun byte low high => ?_⟩
      refine effect.memory_eq fun shared afterHeap left => ?_
      have apart := effect.apart owns left runs own shared.symm found
      obtain ⟨start, stop⟩ := heap.within member
      unfold Region.payload at low
      omega

/-- A region that its owner does not free stays live in every step of the system, and its bytes
change as they are written. -/
theorem HasRegion.systemStep {pid space : Nat} {region : Region}
    (has : machine.HasRegion heaps pid space region) {event : SystemEvent}
    (step : machine.SystemStep platform event next)
    (unfreed : ∀ object answer,
      event ≠ .step (.call pid object ⟨.free (region.payload platform), answer⟩)) :
    (∃ nextHeaps : Nat → Option (Heap platform), next.HasRegion nextHeaps pid space region) ∧
      ∀ byte, region.payload platform ≤ byte → byte < region.top platform →
        (next.spaces space).memory byte =
          lastWritten space byte ((machine.spaces space).memory byte) [event] := by
  cases event with
  | step event =>
    obtain ⟨nextHeaps, kept, bytes⟩ := has.step step fun object answer same =>
      unfreed object answer (by rw [same])
    exact ⟨⟨nextHeaps, kept⟩, bytes⟩
  | write other target value =>
    obtain ⟨_, spares, rfl⟩ := step
    obtain ⟨owns, rest⟩ := has
    exact ⟨⟨heaps, owns.write spares value, rest⟩,
      fun byte _ _ => machine.write_memory other target value space byte⟩

theorem HasRegion.listed {pid space : Nat} {region : Region}
    (has : machine.HasRegion heaps pid space region) :
    ∃ task mm regions, machine.Runs pid task ∧ task.mm = space ∧ task.tsoMm ≠ 0 ∧
      machine.objects task.tsoMm = some mm ∧
        Listed platform (machine.spaces space).memory mm.firstRegion regions ∧
          region ∈ regions := by
  obtain ⟨owns, task, heap, runs, rfl, found, member⟩ := has
  have pointer := owns.tsoMm_ne_zero runs found
  obtain ⟨mm, record⟩ := Option.ne_none_iff_exists'.mp (owns.recorded pid task runs pointer)
  obtain ⟨same, foundToo, represents⟩ := owns.heap_of_record runs pointer record
  obtain rfl := Option.some.inj (found.symm.trans foundToo)
  exact ⟨task, mm, heap.regions, runs, rfl, pointer, record, represents.listed, member⟩

theorem Booted.owns_of_systemRun {start : Machine} (booted : start.Booted)
    {events : List SystemEvent} (run : Run (Machine.SystemStep platform) start events machine) :
    ∃ heaps : Nat → Option (Heap platform), machine.Owns heaps := by
  have initially : ∃ heaps : Nat → Option (Heap platform), start.Owns heaps := ⟨_, booted.owns⟩
  exact run.along (fun state => ∃ heaps : Nat → Option (Heap platform), state.Owns heaps) initially
    fun _ _ _ _ _ _ _ step _ ⟨_, owns⟩ => owns.systemStep step

end Machine

/-- In a run in which tasks fork, make calls and write memory, though not over headers of live
regions, a block that its owner does not free stays in the list, and each of its bytes holds what
was last written to it. -/
theorem intact_of_run {start later : Machine} {before events : List SystemEvent}
    (booted : start.Booted) (run : Run (Machine.SystemStep platform) start before machine)
    {pid : Nat} {task : Task} (runs : machine.Runs pid task) (pointer : task.tsoMm ≠ 0)
    {mm : TsoMmMapping} (record : machine.objects task.tsoMm = some mm) {regions : List Region}
    (listed : Listed platform (machine.spaces task.mm).memory mm.firstRegion regions)
    {region : Region} (member : region ∈ regions)
    (onward : Run (Machine.SystemStep platform) machine events later)
    (unfreed : ∀ object answer,
      .step (.call pid object ⟨.free (region.payload platform), answer⟩) ∉ events) :
    (∃ laterTask laterMm laterRegions, later.Runs pid laterTask ∧ laterTask.mm = task.mm ∧
        later.objects laterTask.tsoMm = some laterMm ∧
          Listed platform (later.spaces task.mm).memory laterMm.firstRegion laterRegions ∧
            region ∈ laterRegions) ∧
      ∀ byte, region.payload platform ≤ byte → byte < region.top platform →
        (later.spaces task.mm).memory byte =
          lastWritten task.mm byte ((machine.spaces task.mm).memory byte) events := by
  obtain ⟨heaps, owns⟩ := booted.owns_of_systemRun run
  obtain ⟨heap, found, represents⟩ := owns.heap_of_record runs pointer record
  obtain rfl := represents.listed.unique listed
  have start : ∃ heaps : Nat → Option (Heap platform),
      machine.HasRegion heaps pid task.mm region :=
    ⟨heaps, owns, task, heap, runs, rfl, found, member⟩
  obtain ⟨⟨laterHeaps, has⟩, bytes⟩ := run_lastWritten
    (fun state => ∃ heaps : Nat → Option (Heap platform),
      state.HasRegion heaps pid task.mm region) onward start
    fun state event after occurs ⟨_, has⟩ step => has.systemStep step fun object answer same =>
      unfreed object answer (same ▸ occurs)
  obtain ⟨laterTask, laterMm, laterRegions, laterRuns, same, _, laterRecord, laterListed, live⟩ :=
    has.listed
  exact ⟨⟨laterTask, laterMm, laterRegions, laterRuns, same, laterRecord, laterListed, live⟩,
    bytes⟩

/-- The steps of tasks are steps of the system. -/
theorem run_steps {events : List MachineEvent}
    (run : Run (Machine.Step platform) machine events next) :
    Run (Machine.SystemStep platform) machine (events.map .step) next := by
  induction run with
  | nil state => exact Run.nil state
  | cons here _ inductionHypothesis =>
    have step : Machine.SystemStep platform _ (.step _) _ := here
    exact Run.cons step inductionHypothesis

/-- `INIT_TASK` has allocated 40 bytes. -/
theorem Machine.exists_allocated : ∃ machine,
    Machine.Step Platform.i386 Machine.boot
        (.call 0 7 ⟨.alloc .secondPage 40, ⟨0, some 0x1008⟩⟩) machine ∧
      machine.currentStrategy = AllocationStrategy.firstFit.value ∧
      machine.tasks = Function.update Machine.boot.tasks 0
          (some { Task.initTask with tsoMm := 7 }) ∧
        machine.objects 7 = some ⟨0x1000, 0x1000, 32768, 32720⟩ ∧
          (machine.spaces 0).mapped = [⟨0x1000, 32768⟩] ∧
            Listed Platform.i386 (machine.spaces 0).memory 0x1000 [⟨0x1000, 40⟩] ∧
              (machine.spaces 0).memory 0x1008 = 0 := by
  obtain ⟨outcome, returned, seen⟩ := exists_outcome Platform.i386 9 (Kernel.boot fun _ => 0)
    (.alloc .secondPage 40) (fun outcome => (outcome.answer, outcome.kernel.currentStrategy,
      outcome.kernel.currentMm,
      decide (Listed Platform.i386 outcome.kernel.memory 0x1000 [⟨0x1000, 40⟩]),
      outcome.kernel.memory 0x1008))
    (show _ = some (⟨0, some 0x1008⟩, AllocationStrategy.firstFit.value,
      some ⟨0x1000, 0x1000, 32768, 32720⟩, true, 0) by decide +kernel)
  simp only [Prod.mk.injEq, decide_eq_true_eq] at seen
  obtain ⟨answered, current, mapped, listed, content⟩ := seen
  have unused : ∀ range ∈ (Machine.boot.spaces 0).mapped,
      0x1000 + Platform.i386.initialSize ≤ range.start ∨ range.start + range.size ≤ 0x1000 := by
    intro range member
    cases member
  have call : Machine.Step Platform.i386 Machine.boot
      (.call 0 7 ⟨.alloc .secondPage 40, ⟨0, some 0x1008⟩⟩)
      (Machine.boot.commit 0 .initTask 7 outcome) :=
    .call rfl rfl ⟨by decide, by decide⟩ (fun _ => ⟨by decide, rfl, unused⟩) returned answered
  refine ⟨_, call, ?_⟩
  rw [Machine.commit_of_some _ _ _ _ mapped]
  exact ⟨current, rfl, rfl, rfl, listed, content⟩

/-- The first task that can run after its first allocation. -/
theorem Machine.runs_allocated {machine : Machine}
    (tasks : machine.tasks = Function.update Machine.boot.tasks 0
      (some { Task.initTask with tsoMm := 7 })) {pid : Nat} {task : Task}
    (runs : machine.Runs pid task) : pid = 0 ∧ task = { Task.initTask with tsoMm := 7 } := by
  have here := runs.1
  rw [tasks, Function.update_apply] at here
  split at here
  · exact ⟨‹_›, (Option.some.inj here).symm⟩
  · have alone : (if pid = 0 then some Task.initTask else none) = some task := here
    rw [if_neg ‹_›] at alone
    cases alone

/-- It may then write to its block. -/
theorem Machine.write_allocated {machine : Machine}
    (tasks : machine.tasks = Function.update Machine.boot.tasks 0
      (some { Task.initTask with tsoMm := 7 }))
    (record : machine.objects 7 = some ⟨0x1000, 0x1000, 32768, 32720⟩)
    (listed : Listed Platform.i386 (machine.spaces 0).memory 0x1000 [⟨0x1000, 40⟩]) :
    Machine.SystemStep Platform.i386 machine (.write 0 0x1008 42) (machine.write 0 0x1008 42) := by
  have here : machine.tasks 0 = some { Task.initTask with tsoMm := 7 } := by
    rw [tasks]
    rfl
  refine ⟨⟨0, _, ⟨here, trivial⟩, rfl⟩, ?_, rfl⟩
  intro pid task mm regions taskRuns _ _ found walked region member
  obtain ⟨rfl, rfl⟩ := Machine.runs_allocated tasks taskRuns
  obtain rfl := Option.some.inj (record.symm.trans found)
  obtain rfl := listed.unique walked
  obtain rfl := List.mem_singleton.mp member
  exact Or.inr (by decide)

theorem intact_sample : ∃ machine later,
    Run (Machine.SystemStep Platform.i386) machine
        [.write 0 0x1008 42, .step (.dupTaskStruct 0 1 .threadFlags)] later ∧
      (machine.spaces 0).memory 0x1008 = 0 ∧ (later.spaces 0).memory 0x1008 = 42 := by
  obtain ⟨machine, call, _, tasks, record, _, listed, content⟩ := Machine.exists_allocated
  have here : machine.tasks 0 = some { Task.initTask with tsoMm := 7 } := by
    rw [tasks]
    rfl
  have fresh : machine.tasks 1 = none := by
    rw [tasks]
    rfl
  have runs : machine.Runs 0 { Task.initTask with tsoMm := 7 } := ⟨here, trivial⟩
  have written := Machine.write_allocated tasks record listed
  have forked : Machine.SystemStep Platform.i386 (machine.write 0 0x1008 42)
      (.step (.dupTaskStruct 0 1 .threadFlags)) _ :=
    Machine.Step.dupTaskStruct here rfl (by decide) fresh
  have onward := Run.cons written (run_singleton.mpr forked)
  have start : Machine.SystemStep Platform.i386 Machine.boot (.step _) machine := call
  obtain ⟨_, bytes⟩ := intact_of_run Machine.booted_boot (run_singleton.mpr start) runs (by decide)
    record listed List.mem_cons_self onward (by
      intro object answer member
      simp at member)
  exact ⟨machine, _, onward, content, (bytes 0x1008 (by decide) (by decide)).trans rfl⟩

/-! ### Ranges that nobody uses -/

namespace Machine

/-- Every task owns its heap, and in the address space of one of them a range is mapped that is
apart from the heaps of all. -/
structure Unclaimed (machine : Machine) (heaps : Nat → Option (Heap platform)) (pid space : Nat)
    (range : Range) : Prop where
  owns : machine.Owns heaps
  inhabits : machine.Inhabits pid space
  mapped : range ∈ (machine.spaces space).mapped
  apart : ∀ other task heap, machine.Runs other task → task.mm = space →
    heaps other = some heap → heap.stop ≤ range.start ∨ range.start + range.size ≤ heap.start

theorem Runs.of_setTask {pid other : Nat} {task : Task} {entry : Option Task}
    (runs : (machine.setTask other entry).Runs pid task) :
    pid = other ∧ entry = some task ∨ machine.Runs pid task := by
  obtain ⟨here, canRun⟩ := runs
  rw [setTask_tasks] at here
  split at here
  · exact Or.inl ⟨‹_›, here⟩
  · exact Or.inr ⟨here, canRun⟩

theorem Runs.of_setCopy {pid other parent : Nat} {task copy : Task} {stage : Stage}
    (runs : (machine.setTask other (some copy)).Runs pid task)
    (created : copy.status = .created parent stage) : machine.Runs pid task := by
  rcases runs.of_setTask with ⟨_, same⟩ | was
  · obtain rfl := Option.some.inj same
    have canRun := runs.2
    rw [created] at canRun
    exact canRun.elim
  · exact was

/-- A task that can run after a step of `do_fork` could run before it, or has just been woken and
holds no record. -/
theorem Owns.ran (owns : machine.Owns heaps) {event : MachineEvent}
    (step : Machine.Step platform machine event next)
    (noCall : ∀ caller object made, event ≠ .call caller object made) {pid : Nat} {task : Task}
    (runs : next.Runs pid task) : (∃ source, machine.Runs pid source) ∨ task.tsoMm = 0 := by
  cases step with
  | rejectFork here running => exact Or.inl ⟨task, runs⟩
  | @dupTaskStruct parent child source flags here running valid fresh =>
    left
    rcases (runs.of_setCopy rfl).of_setTask with ⟨rfl, _⟩ | was
    · exact ⟨source, machine.runs_of_running here running⟩
    · exact ⟨task, was⟩
  | copyMm here forking copyHere was fresh =>
    have entry : (machine.setTask _ (some _)).Runs pid task := runs
    exact Or.inl ⟨task, entry.of_setCopy rfl⟩
  | attach here was => exact Or.inl ⟨task, runs.of_setCopy rfl⟩
  | @failFork parent child source _ _ _ here forking copyHere was early =>
    left
    rcases runs.of_setTask with ⟨_, absent⟩ | rest
    · cases absent
    rcases rest.of_setTask with ⟨rfl, _⟩ | was
    · exact ⟨source, machine.runs_of_forking here forking⟩
    · exact ⟨task, was⟩
  | clearTsoMm here was => exact Or.inl ⟨task, runs.of_setCopy rfl⟩
  | wakeUpNewTask here was =>
    rcases runs.of_setTask with ⟨_, same⟩ | ran
    · have null := owns.tsoMm_of_cleared here was
      obtain rfl := Option.some.inj same
      exact Or.inr null
    · exact Or.inl ⟨task, ran⟩
  | @returnFork parent child source _ _ here forking copyHere woken =>
    left
    rcases runs.of_setTask with ⟨rfl, _⟩ | was
    · exact ⟨source, machine.runs_of_forking here forking⟩
    · exact ⟨task, was⟩
  | call => exact absurd rfl (noCall _ _ _)

/-- A range that nobody uses stays so in every step, with its bytes, unless `copy_process` gives up
the copy whose address space it is in. -/
theorem Unclaimed.step {pid space : Nat} {range : Range}
    (unclaimed : machine.Unclaimed heaps pid space range) {event : MachineEvent}
    (step : Machine.Step platform machine event next)
    (stays : ∀ parent, event ≠ .failFork parent pid) :
    ∃ nextHeaps : Nat → Option (Heap platform), next.Unclaimed nextHeaps pid space range ∧
      ∀ byte, range.start ≤ byte → byte < range.start + range.size →
        (next.spaces space).memory byte = (machine.spaces space).memory byte := by
  have inhabits := step.inhabits unclaimed.inhabits stays
  by_cases noCall : ∀ caller object made, event ≠ .call caller object made
  · obtain ⟨nextHeaps, kept, same⟩ := unclaimed.owns.fork step noCall
    have spaces := step.spaces_eq noCall unclaimed.inhabits
    refine ⟨nextHeaps, ⟨kept, inhabits, spaces ▸ unclaimed.mapped, ?_⟩, fun byte _ _ => ?_⟩
    · intro other task heap runs mm found
      rcases unclaimed.owns.ran step noCall runs with ⟨source, sourceRuns⟩ | null
      · obtain ⟨later, laterRuns, laterMm⟩ := step.runs_mm sourceRuns
        obtain rfl := Option.some.inj (laterRuns.1.symm.trans runs.1)
        rw [same other source sourceRuns] at found
        exact unclaimed.apart other source heap sourceRuns (laterMm.symm.trans mm) found
      · exact absurd null (kept.tsoMm_ne_zero runs found)
    · rw [spaces]
  · push Not at noCall
    obtain ⟨caller, object, made, rfl⟩ := noCall
    obtain ⟨callerTask, strategy, after, effect⟩ := unclaimed.owns.callEffect step
    have left (shared : callerTask.mm = space) (heap : Heap platform)
        (left : after.heap = some heap) :
        heap.stop ≤ range.start ∨ range.start + range.size ≤ heap.start := by
      subst shared
      exact effect.apart_of_mapped unclaimed.owns left unclaimed.mapped fun before found =>
        unclaimed.apart caller callerTask before effect.runs rfl found
    refine ⟨_, ⟨effect.owns, inhabits, ?_, ?_⟩, ?_⟩
    · by_cases shared : callerTask.mm = space
      · subst shared
        exact effect.mapped range unclaimed.mapped
      · rw [effect.others space (Ne.symm shared)]
        exact unclaimed.mapped
    · intro other task heap runs mm found
      by_cases own : other = caller
      · subst own
        obtain ⟨later, laterRuns, laterMm⟩ := step.runs_mm effect.runs
        obtain rfl := Option.some.inj (laterRuns.1.symm.trans runs.1)
        rw [Function.update_self] at found
        exact left (laterMm.symm.trans mm) heap found
      · rw [Function.update_of_ne own] at found
        have ran : machine.Runs other task := ⟨(effect.tasks other own).symm.trans runs.1, runs.2⟩
        exact unclaimed.apart other task heap ran mm found
    · intro byte low high
      refine effect.memory_eq fun shared heap found => ?_
      have apart := left shared heap found
      unfold Layout.stop at apart ⊢
      omega

/-- A range that nobody uses stays so in every step of the system, and its bytes change as they are
written. -/
theorem Unclaimed.systemStep {pid space : Nat} {range : Range}
    (unclaimed : machine.Unclaimed heaps pid space range) {event : SystemEvent}
    (step : machine.SystemStep platform event next)
    (stays : ∀ parent, event ≠ .step (.failFork parent pid)) :
    (∃ nextHeaps : Nat → Option (Heap platform), next.Unclaimed nextHeaps pid space range) ∧
      ∀ byte, range.start ≤ byte → byte < range.start + range.size →
        (next.spaces space).memory byte =
          lastWritten space byte ((machine.spaces space).memory byte) [event] := by
  cases event with
  | step event =>
    obtain ⟨nextHeaps, kept, bytes⟩ := unclaimed.step step fun parent same =>
      stays parent (by rw [same])
    exact ⟨⟨nextHeaps, kept⟩, bytes⟩
  | write other target value =>
    obtain ⟨_, spares, rfl⟩ := step
    refine ⟨⟨heaps, unclaimed.owns.write spares value, unclaimed.inhabits, ?_, unclaimed.apart⟩,
      fun byte _ _ => machine.write_memory other target value space byte⟩
    rw [write_mapped]
    exact unclaimed.mapped

/-- The private copy that `copy_mm` makes has everything that the parent has mapped, and nobody uses
any of it. -/
theorem Owns.unclaimed (owns : machine.Owns heaps) {parent child space : Nat} {task : Task}
    {flags : CloneFlags} (here : machine.tasks parent = some task)
    (forking : task.status = .forking child flags) (unshared : flags.vm = false)
    (step : Machine.Step platform machine (.copyMm parent child space) next) {range : Range}
    (mapped : range ∈ (machine.spaces task.mm).mapped) :
    next.Unclaimed heaps child space range ∧
      (next.spaces space).memory = (machine.spaces task.mm).memory := by
  cases step with
  | @copyMm _ _ _ source copy _ sourceHere sourceForking copyHere was fresh =>
    obtain rfl := Option.some.inj (here.symm.trans sourceHere)
    obtain ⟨_, rfl⟩ := Status.forking.inj (forking.symm.trans sourceForking)
    have copied := owns.copyMm sourceHere sourceForking copyHere was fresh
    simp only [unshared, Bool.false_eq_true, if_false] at copied ⊢
    rw [Function.update_self]
    refine ⟨⟨copied, ⟨_, (machine.setTask_tasks child child _).trans (if_pos rfl), rfl,
      show Stage.mmCopied ≠ .duplicated by decide⟩, ?_, ?_⟩, rfl⟩
    · dsimp only
      rw [Function.update_self]
      exact mapped
    · intro other user heap runs mm found
      have entry : (machine.setTask child (some _)).Runs other user := runs
      exact absurd mm (fresh unshared other user (entry.of_setCopy rfl).1)

end Machine

/-- After a fork that shares no memory, the allocator never changes a byte of what the child has
inherited: in its copy, every byte of every range that the parent had mapped changes only as the
tasks write it, headers and blocks alike, unless `copy_process` fails and gives the copy up. -/
theorem inherited_of_run {start later : Machine} {before events : List SystemEvent}
    (booted : start.Booted) (run : Run (Machine.SystemStep platform) start before machine)
    {parent child space : Nat} {task : Task} {flags : CloneFlags}
    (here : machine.tasks parent = some task) (forking : task.status = .forking child flags)
    (unshared : flags.vm = false)
    (copied : Machine.Step platform machine (.copyMm parent child space) next)
    (onward : Run (Machine.SystemStep platform) next events later)
    (stays : ∀ other, .step (.failFork other child) ∉ events) :
    ∀ range ∈ (machine.spaces task.mm).mapped, ∀ byte, range.start ≤ byte →
      byte < range.start + range.size → (later.spaces space).memory byte =
        lastWritten space byte ((machine.spaces task.mm).memory byte) events := by
  intro range mapped byte low high
  obtain ⟨heaps, owns⟩ := booted.owns_of_systemRun run
  obtain ⟨unclaimed, memory⟩ := owns.unclaimed here forking unshared copied mapped
  obtain ⟨_, bytes⟩ := run_lastWritten
    (fun state => ∃ heaps : Nat → Option (Heap platform),
      state.Unclaimed heaps child space range) onward ⟨heaps, unclaimed⟩
    fun state event after occurs ⟨_, unclaimed⟩ step =>
      unclaimed.systemStep step fun other same => stays other (same ▸ occurs)
  rw [bytes byte low high, memory]

/-- The flags of `fork`. -/
def CloneFlags.forkFlags : CloneFlags where
  newNs := false
  fs := false
  newUser := false
  newPid := false
  thread := false
  sighand := false
  vm := false

/-- The rest of a fork, from the copy of the memory to the child being woken. -/
theorem run_wake {parent child tsoMm space : Nat}
    (here : machine.tasks child = some ⟨tsoMm, space, .created parent .mmCopied⟩) :
    Run (Machine.Step platform) machine
      [.attach parent child, .clearTsoMm parent child, .wakeUpNewTask parent child]
      (machine.setTask child (some ⟨0, space, .running⟩)) := by
  have entry (task : Task) : (machine.setTask child (some task)).tasks child = some task := by
    rw [Machine.setTask_tasks, if_pos rfl]
  have attached : Machine.Step platform machine (.attach parent child) _ := .attach here rfl
  have cleared : Machine.Step platform (machine.setTask child
      (some ⟨tsoMm, space, .created parent .attached⟩)) (.clearTsoMm parent child) _ :=
    .clearTsoMm (entry _) rfl
  rw [Machine.setTask_setTask] at cleared
  have woken : Machine.Step platform (machine.setTask child
      (some ⟨0, space, .created parent .cleared⟩)) (.wakeUpNewTask parent child) _ :=
    .wakeUpNewTask (entry _) rfl
  rw [Machine.setTask_setTask] at woken
  exact Run.cons attached (Run.cons cleared (run_singleton.mpr woken))

/-- A fork with a private copy of the memory, as far as the child being woken. -/
theorem exists_fork_copy {parent child space : Nat} {task : Task} {flags : CloneFlags}
    (here : machine.tasks parent = some task) (running : task.status = .running)
    (valid : flags.invalid = false) (unshared : flags.vm = false)
    (fresh : machine.tasks child = none)
    (unused : ∀ pid other, machine.tasks pid = some other → other.mm ≠ space) :
    ∃ forked copied woken,
      Machine.Step platform machine (.dupTaskStruct parent child flags) forked ∧
      forked.tasks parent = some { task with status := .forking child flags } ∧
        forked.spaces = machine.spaces ∧
          Machine.Step platform forked (.copyMm parent child space) copied ∧
            Run (Machine.Step platform) copied
                [.attach parent child, .clearTsoMm parent child, .wakeUpNewTask parent child]
                woken ∧
              woken.Runs child { tsoMm := 0, mm := space, status := .running } ∧
                ∀ pid user, woken.Runs pid user → user.mm = space → user.tsoMm = 0 := by
  have apart : parent ≠ child := by
    rintro rfl
    rw [fresh] at here
    cases here
  have forked : Machine.Step platform machine (.dupTaskStruct parent child flags) _ :=
    .dupTaskStruct here running valid fresh
  generalize state :
    (machine.setTask parent (some { task with status := .forking child flags })).setTask child
      (some { task with status := .created parent .duplicated }) = middle at forked
  have parentHere : middle.tasks parent = some { task with status := .forking child flags } := by
    rw [← state, Machine.setTask_tasks, if_neg apart, Machine.setTask_tasks, if_pos rfl]
  have childHere : middle.tasks child =
      some { task with status := .created parent .duplicated } := by
    rw [← state, Machine.setTask_tasks, if_pos rfl]
  have stillUnused (pid : Nat) (other : Task) (there : middle.tasks pid = some other) :
      other.mm ≠ space := by
    rw [← state, Machine.setTask_tasks, Machine.setTask_tasks] at there
    split at there
    · obtain rfl := Option.some.inj there
      exact unused parent task here
    split at there
    · obtain rfl := Option.some.inj there
      exact unused parent task here
    · exact unused pid other there
  obtain ⟨copy, copied, copyHere, ran⟩ : ∃ copy,
      Machine.Step platform middle (.copyMm parent child space) copy ∧
        copy.tasks child =
            some { tsoMm := task.tsoMm, mm := space, status := .created parent .mmCopied } ∧
          ∀ pid user, copy.Runs pid user → middle.Runs pid user := by
    refine ⟨_, .copyMm parentHere rfl childHere rfl fun _ => stillUnused, ?_, ?_⟩
    · refine (middle.setTask_tasks child child _).trans ?_
      rw [if_pos rfl, unshared]
      rfl
    · intro pid user runs
      have entry : (middle.setTask child (some _)).Runs pid user := runs
      exact entry.of_setCopy rfl
  have woken : (copy.setTask child (some ⟨0, space, .running⟩)).tasks child =
      some ⟨0, space, .running⟩ := by
    rw [Machine.setTask_tasks, if_pos rfl]
  refine ⟨middle, copy, _, forked, parentHere, state ▸ rfl, copied, run_wake copyHere,
    ⟨woken, trivial⟩, ?_⟩
  intro pid user runs own
  rcases runs.of_setTask with ⟨_, same⟩ | was
  · rw [← Option.some.inj same]
  · exact absurd own (stillUnused pid user (ran pid user was).1)

theorem inherited_sample : ∃ machine next later,
    Machine.Step Platform.i386 machine (.copyMm 0 1 5) next ∧
      Run (Machine.SystemStep Platform.i386) next [.step (.attach 0 1), .step (.clearTsoMm 0 1),
          .step (.wakeUpNewTask 0 1), .write 5 0x1008 42] later ∧
        (machine.spaces 0).memory 0x1008 = 0 ∧ (later.spaces 5).memory 0x1008 = 42 := by
  obtain ⟨machine, call, _, tasks, _, mapped, _, content⟩ := Machine.exists_allocated
  have here : machine.tasks 0 = some { Task.initTask with tsoMm := 7 } := by
    rw [tasks]
    rfl
  have absent : machine.tasks 1 = none := by
    rw [tasks]
    rfl
  have unused : ∀ pid other, machine.tasks pid = some other → other.mm ≠ 5 := by
    intro pid other there
    rw [tasks, Function.update_apply] at there
    split at there
    · obtain rfl := Option.some.inj there
      decide
    · have alone : (if pid = 0 then some Task.initTask else none) = some other := there
      rw [if_neg ‹_›] at alone
      cases alone
  obtain ⟨forked, copied, woken, fork, forking, spaces, copy, wake, runs, null⟩ :=
    exists_fork_copy here rfl (show CloneFlags.forkFlags.invalid = false by decide) rfl absent
      unused
  have spares : woken.Spares Platform.i386 5 0x1008 := by
    intro pid task mm regions taskRuns own pointer
    exact absurd (null pid task taskRuns own) pointer
  have written : Machine.SystemStep Platform.i386 woken (.write 5 0x1008 42) _ :=
    ⟨⟨1, _, runs, rfl⟩, spares, rfl⟩
  have onward := run_append.mpr ⟨woken, run_steps wake, run_singleton.mpr written⟩
  have before := run_steps (Run.cons call (run_singleton.mpr fork))
  have bytes := inherited_of_run Machine.booted_boot before forking rfl rfl copy onward
    (by simp) ⟨0x1000, 32768⟩ (by
      rw [spaces, show (_ : Task).mm = 0 from rfl, mapped]
      exact List.mem_cons_self) 0x1008 (by decide) (by decide)
  exact ⟨forked, copied, _, copy, onward, by rw [spaces]; exact content, bytes.trans rfl⟩

end TsoAlloc
