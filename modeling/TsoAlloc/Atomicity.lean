/-
This file runs the system with calls that are interrupted. A task may stand in the middle of
a call while other tasks fork, write their memory and make calls. What it has read so far
stays true: nobody else touches its record or the headers of its regions. So the run is one
in which every call is one step, at the moment when it returns, with the same answers and
the same states; and every call returns, whatever the others do.

A strategy switch waits until no allocation is pending. Otherwise a search may see several
strategies, and that changes what it finds.
-/

import TsoAlloc.Preemption

namespace TsoAlloc

open Transition

/-! ### The system with pending calls -/

/-- The system, and the calls that are pending. -/
structure Preempted where
  machine : Machine
  pending : Nat → Option Pending

/-- What happens: a call comes to its loop, or takes a step, or returns, or something happens that
is no call. -/
inductive PreemptedEvent where
  | enter (pid : Nat) (call : Call)
  | step (pid : Nat)
  | returns (pid object : Nat) (event : Event)
  | other (event : SystemEvent)
deriving DecidableEq

/-- What is seen of an event when calls are one step. -/
def PreemptedEvent.completed : PreemptedEvent → List SystemEvent
  | .enter _ _ => []
  | .step _ => []
  | .returns pid object event => [.step (.call pid object event)]
  | .other event => [event]

/-- The task that enters `do_fork`. -/
def SystemEvent.forking : SystemEvent → Option Nat
  | .step (.rejectFork parent) => some parent
  | .step (.dupTaskStruct parent _ _) => some parent
  | _ => none

/-- The event is a call. -/
def SystemEvent.IsCall (event : SystemEvent) : Prop :=
  ∃ pid object made, event = .step (.call pid object made)

/-- An allocation is pending. -/
def Preempted.Allocates (state : Preempted) : Prop :=
  ∃ pid pending environment size, state.pending pid = some pending ∧
    pending.call = .alloc environment size

section

variable (platform : Platform)

/-- The steps of the system. While an allocation is pending, the strategy is switched to one like it
at most. -/
inductive Preempted.Step (alike : Setoid AllocationStrategy) :
    Preempted → PreemptedEvent → Preempted → Prop
  /-- A call begins and comes to its loop. -/
  | enter {state : Preempted} {pid : Nat} {task : Task} {call : Call} {pending : Pending} :
    state.machine.tasks pid = some task → task.status = .running → state.pending pid = none →
      call.Legal platform (state.machine.view task) →
        call.enter platform (state.machine.view task) = .ok (.inl pending) →
          Step alike state (.enter pid call)
            { state with pending := Function.update state.pending pid (some pending) }
  /-- A call without a loop returns. -/
  | pass {state : Preempted} {pid object : Nat} {task : Task} {event : Event} {outcome : Outcome} :
    state.machine.tasks pid = some task → task.status = .running → state.pending pid = none →
      event.call.Legal platform (state.machine.view task) →
        state.machine.Provides platform task object event.call →
          (∀ old new : AllocationStrategy, state.machine.currentStrategy = old.value →
            event.call = .switchStrategy new.value → state.Allocates → alike old new) →
            event.call.enter platform (state.machine.view task) = .ok (.inr outcome) →
              outcome.answer = event.answer →
                Step alike state (.returns pid object event)
                  { state with machine := state.machine.commit pid task object outcome }
  /-- A pending call takes a step. -/
  | step {state : Preempted} {pid : Nat} {task : Task} {pending next : Pending} :
    state.machine.tasks pid = some task → state.pending pid = some pending →
      pending.step platform (state.machine.view task) = .ok (.inl next) →
        Step alike state (.step pid)
          { state with pending := Function.update state.pending pid (some next) }
  /-- A pending call returns. -/
  | finish {state : Preempted} {pid object : Nat} {task : Task} {pending : Pending}
      {outcome : Outcome} :
    state.machine.tasks pid = some task → state.pending pid = some pending →
      pending.step platform (state.machine.view task) = .ok (.inr outcome) →
        Step alike state (.returns pid object ⟨pending.call, outcome.answer⟩)
          { machine := state.machine.commit pid task object outcome
            pending := Function.update state.pending pid none }
  /-- A step of `do_fork`, which no task enters while it has a call pending, or a write. -/
  | other {state : Preempted} {event : SystemEvent} {next : Machine} :
    ¬ event.IsCall → (∀ parent, event.forking = some parent → state.pending parent = none) →
      state.machine.SystemStep platform event next →
        Step alike state (.other event) { state with machine := next }

end

variable {platform : Platform} {machine next : Machine} {heaps : Nat → Option (Heap platform)}
  {alike : Setoid AllocationStrategy}

/-! ### What the others leave alone -/

namespace Machine

/-- A task whose call is pending: it runs, has a heap, and the call has come so far in it that it
takes so many more steps at most before it returns. -/
def Waits (machine : Machine) (heaps : Nat → Option (Heap platform))
    (alike : Setoid AllocationStrategy) (pid : Nat) (pending : Pending) (left : Nat) : Prop :=
  ∃ task heap strategy, machine.tasks pid = some task ∧ task.status = .running ∧
    heaps pid = some heap ∧ machine.currentStrategy = strategy.value ∧
      pending.Follows heap (alike strategy) left ∧ left ≤ heap.regions.length + 1

/-- A task that runs stays as it is in every step of `do_fork` that is not its own. -/
theorem Step.tasks_running {event : MachineEvent}
    (step : Machine.Step platform machine event next)
    (noCall : ¬ (SystemEvent.step event).IsCall) {pid : Nat} {task : Task}
    (here : machine.tasks pid = some task) (running : task.status = .running)
    (other : (SystemEvent.step event).forking ≠ some pid) :
    next.tasks pid = some task ∧ next.currentStrategy = machine.currentStrategy := by
  have apart {found : Nat} {copy : Task} (there : machine.tasks found = some copy)
      (busy : copy.status ≠ .running) : pid ≠ found := by
    rintro rfl
    rw [here] at there
    obtain rfl := Option.some.inj there
    exact busy running
  have kept {found : Nat} {entry : Option Task} {state : Machine}
      (same : state.tasks pid = some task) (different : pid ≠ found) :
      (state.setTask found entry).tasks pid = some task := by
    rw [setTask_tasks, if_neg different]
    exact same
  cases step with
  | rejectFork there busy => exact ⟨here, rfl⟩
  | @dupTaskStruct parent child source flags there idle valid fresh =>
    have notParent : pid ≠ parent := fun same => other (congrArg some same.symm)
    have notChild : pid ≠ child := by
      rintro rfl
      rw [here] at fresh
      cases fresh
    exact ⟨kept (kept here notParent) notChild, rfl⟩
  | copyMm there forking copyHere was fresh =>
    exact ⟨kept here (apart copyHere (by rw [was]; rintro ⟨⟩)), rfl⟩
  | attach there was => exact ⟨kept here (apart there (by rw [was]; rintro ⟨⟩)), rfl⟩
  | failFork there forking copyHere was early =>
    exact ⟨kept (kept here (apart there (by rw [forking]; rintro ⟨⟩)))
      (apart copyHere (by rw [was]; rintro ⟨⟩)), rfl⟩
  | clearTsoMm there was => exact ⟨kept here (apart there (by rw [was]; rintro ⟨⟩)), rfl⟩
  | wakeUpNewTask there was => exact ⟨kept here (apart there (by rw [was]; rintro ⟨⟩)), rfl⟩
  | returnFork there forking copyHere woken =>
    exact ⟨kept here (apart there (by rw [forking]; rintro ⟨⟩)), rfl⟩
  | call there running legal provides returned answered => exact absurd ⟨_, _, _, rfl⟩ noCall

/-- What is no call leaves every pending call where it is. -/
theorem Owns.other_waits (owns : machine.Owns heaps) {event : SystemEvent}
    (step : machine.SystemStep platform event next) (noCall : ¬ event.IsCall) :
    ∃ nextHeaps : Nat → Option (Heap platform), next.Owns nextHeaps ∧
      ∀ pid pending left, event.forking ≠ some pid → machine.Waits heaps alike pid pending left →
        next.Waits nextHeaps alike pid pending left := by
  cases event with
  | step event =>
    obtain ⟨nextHeaps, nextOwns, same⟩ :=
      owns.fork step fun pid object made call => noCall ⟨pid, object, made, congrArg _ call⟩
    refine ⟨nextHeaps, nextOwns, ?_⟩
    rintro pid pending left other ⟨task, heap, strategy, here, running, found, current, rest⟩
    obtain ⟨stays, unchanged⟩ := Step.tasks_running step noCall here running other
    exact ⟨task, heap, strategy, stays, running,
      (same pid task (machine.runs_of_running here running)).trans found,
      unchanged.trans current, rest⟩
  | write space byte value =>
    obtain ⟨_, spares, rfl⟩ := step
    exact ⟨heaps, owns.write spares value, fun _ _ _ _ waits => waits⟩

end Machine

theorem Pending.Follows.congr {heap : Heap platform} {Finds Other : AllocationStrategy → Prop}
    {left : Nat} {pending : Pending} (follows : pending.Follows heap Finds left)
    (same : (∃ environment size, pending.call = .alloc environment size) → Finds = Other) :
    pending.Follows heap Other left := by
  cases pending with
  | searching environment size scan =>
    obtain rfl := same ⟨environment, size, rfl⟩
    exact follows
  | found environment size fit state =>
    obtain rfl := same ⟨environment, size, rfl⟩
    exact follows
  | walking addr walk => exact follows

namespace Machine

/-- A call that is one step leaves the pending calls of the other tasks where they are, unless it
switches to a strategy that is not like the one in force. -/
theorem Owns.call_waits (owns : machine.Owns heaps) (fair : alike ≤ sameBestFit)
    {pid object : Nat} {task : Task} {event : Event} {outcome : Outcome}
    {strategy : AllocationStrategy} (here : machine.tasks pid = some task)
    (running : task.status = .running) (legal : event.call.Legal platform (machine.view task))
    (provides : machine.Provides platform task object event.call)
    (current : machine.currentStrategy = strategy.value)
    (returned : event.call.MayReturn platform (alike strategy) (machine.view task) outcome)
    (answered : outcome.answer = event.answer) :
    ∃ nextHeaps : Nat → Option (Heap platform),
      (machine.commit pid task object outcome).Owns nextHeaps ∧
        ∀ other pending left, other ≠ pid → machine.Waits heaps alike other pending left →
          (∀ new : AllocationStrategy, event.call = .switchStrategy new.value →
            (∃ environment size, pending.call = .alloc environment size) → alike strategy new) →
              (machine.commit pid task object outcome).Waits nextHeaps alike other pending
                left := by
  obtain ⟨after, kept, follows⟩ :=
    owns.racing fair here running legal provides returned answered
  refine ⟨_, kept, ?_⟩
  rintro other pending left different
    ⟨source, heap, known, there, busy, found, same, way, bound⟩ undisturbed
  obtain rfl := AllocationStrategy.value_injective (same.symm.trans current)
  have later : ∃ new : AllocationStrategy, outcome.kernel.currentStrategy = new.value ∧
      ((∃ environment size, pending.call = .alloc environment size) → alike known new) := by
    rw [follows]
    cases called : event.call with
    | alloc environment size => exact ⟨known, current, fun _ => alike.refl' known⟩
    | free addr => exact ⟨known, current, fun _ => alike.refl' known⟩
    | switchStrategy value =>
      rw [called] at legal
      obtain ⟨new, rfl⟩ := legal
      exact ⟨new, rfl, undisturbed new called⟩
  obtain ⟨new, followed, like⟩ := later
  refine ⟨source, heap, new, (machine.commit_tasks different).trans there, busy,
    (Function.update_of_ne different _ _).trans found,
    (machine.commit_currentStrategy pid task object outcome).trans followed,
    way.congr fun allocates => ?_, bound⟩
  exact funext fun other => propext
    ⟨alike.trans' (alike.symm' (like allocates)), alike.trans' (like allocates)⟩

/-- The next step of a pending call leads it on, or returns what the call may return when it is
one step. -/
theorem Waits.step {pid left : Nat} {pending : Pending}
    (waits : machine.Waits heaps alike pid pending left) (owns : machine.Owns heaps) {task : Task}
    (here : machine.tasks pid = some task) :
    task.status = .running ∧
      ((∃ next fewer, pending.step platform (machine.view task) = .ok (.inl next) ∧
          next.call = pending.call ∧ machine.Waits heaps alike pid next fewer ∧ fewer < left) ∨
        ∃ outcome strategy, pending.step platform (machine.view task) = .ok (.inr outcome) ∧
          machine.currentStrategy = strategy.value ∧
            pending.call.MayReturn platform (alike strategy) (machine.view task) outcome) := by
  obtain ⟨found, heap, strategy, same, running, own, current, follows, bound⟩ := waits
  obtain rfl := Option.some.inj (same.symm.trans here)
  have holds := owns.holds pid found (machine.runs_of_running here running)
  rw [own] at holds
  obtain ⟨mm, mapped, represents⟩ := holds
  refine ⟨running, ?_⟩
  rcases follows.step mapped represents current (alike.refl' strategy) with
    ⟨next, fewer, stepped, call, further, less⟩ | ⟨outcome, stepped, returns⟩
  · exact Or.inl ⟨next, fewer, stepped, call, ⟨found, heap, strategy, here, running, own, current,
      further, less.le.trans bound⟩, less⟩
  · exact Or.inr ⟨outcome, strategy, stepped, current, returns⟩

/-- A pending call may be made, and needs no new record. -/
theorem Waits.legal {pid left : Nat} {pending : Pending}
    (waits : machine.Waits heaps alike pid pending left) (owns : machine.Owns heaps) {task : Task}
    (here : machine.tasks pid = some task) (object : Nat) :
    pending.call.Legal platform (machine.view task) ∧
      machine.Provides platform task object pending.call := by
  obtain ⟨found, heap, strategy, same, running, own, current, follows, bound⟩ := waits
  obtain rfl := Option.some.inj (same.symm.trans here)
  have runs := machine.runs_of_running here running
  have holds := owns.holds pid found runs
  rw [own] at holds
  obtain ⟨mm, mapped, represents⟩ := holds
  have pointer := owns.tsoMm_ne_zero runs own
  refine ⟨follows.legal mapped, ?_⟩
  cases pending with
  | searching => exact fun null => absurd null pointer
  | found => exact fun null => absurd null pointer
  | walking => trivial

end Machine

theorem Pending.call_ne_switchStrategy (pending : Pending) (strategy : BitVec 32) :
    pending.call ≠ .switchStrategy strategy := by
  cases pending <;> rintro ⟨⟩

/-! ### One step -/

namespace Preempted

variable {state later : Preempted}

/-- Every task owns what it has, and every pending call has come some way. -/
structure Sound (alike : Setoid AllocationStrategy) (state : Preempted)
    (heaps : Nat → Option (Heap platform)) : Prop where
  owns : state.machine.Owns heaps
  waits : ∀ pid pending, state.pending pid = some pending →
    ∃ left, state.machine.Waits heaps alike pid pending left

/-- The state is sound, and this is its machine. -/
def Shows (platform : Platform) (alike : Setoid AllocationStrategy) (state : Preempted)
    (machine : Machine) : Prop :=
  (∃ heaps : Nat → Option (Heap platform), state.Sound alike heaps) ∧ state.machine = machine

/-- A step that does not end the call of a task leaves it pending, and a step of its own brings it
closer to its end. -/
def Keeps (alike : Setoid AllocationStrategy) (state later : Preempted)
    (heaps nextHeaps : Nat → Option (Heap platform)) (event : PreemptedEvent) : Prop :=
  ∀ pid pending left, state.pending pid = some pending →
    state.machine.Waits heaps alike pid pending left →
      (∀ object made, event ≠ .returns pid object made) →
        ∃ next fewer, later.pending pid = some next ∧ next.call = pending.call ∧
          later.machine.Waits nextHeaps alike pid next fewer ∧
            fewer + (if event = .step pid then 1 else 0) ≤ left

theorem update_eq_some {table : Nat → Option Pending} {pid other : Nat} {entry : Option Pending}
    {pending : Pending} : Function.update table pid entry other = some pending ↔
      other = pid ∧ entry = some pending ∨ other ≠ pid ∧ table other = some pending := by
  by_cases same : other = pid
  · subst same
    simp
  · simp [same]

/-- A pending call that has come some way may be added. -/
theorem Sound.update (sound : state.Sound alike heaps) {pid left : Nat} {pending : Pending}
    (waits : state.machine.Waits heaps alike pid pending left) :
    { state with
      pending := Function.update state.pending pid (some pending) }.Sound alike heaps where
  owns := sound.owns
  waits := by
    intro other found there
    rcases update_eq_some.mp there with ⟨rfl, same⟩ | ⟨_, was⟩
    · obtain rfl := Option.some.inj same
      exact ⟨left, waits⟩
    · exact sound.waits other found was

/-- A step that keeps the pending calls and adds none keeps the system sound. -/
theorem Sound.of_keeps {nextHeaps : Nat → Option (Heap platform)} {event : PreemptedEvent}
    (sound : state.Sound alike heaps) (owns : later.machine.Owns nextHeaps)
    (keeps : state.Keeps alike later heaps nextHeaps event)
    (added : ∀ pid pending, later.pending pid = some pending →
      (∃ before, state.pending pid = some before) ∧
        ∀ object made, event ≠ .returns pid object made) : later.Sound alike nextHeaps where
  owns := owns
  waits := by
    intro pid pending there
    obtain ⟨⟨before, was⟩, stays⟩ := added pid pending there
    obtain ⟨left, waits⟩ := sound.waits pid before was
    obtain ⟨next, fewer, found, _, onward, _⟩ := keeps pid before left was waits stays
    obtain rfl := Option.some.inj (found.symm.trans there)
    exact ⟨fewer, onward⟩

/-- A call with a loop begins. -/
theorem Sound.enter (sound : state.Sound alike heaps) {pid : Nat} {task : Task} {call : Call}
    {pending : Pending} (here : state.machine.tasks pid = some task)
    (running : task.status = .running) (idle : state.pending pid = none)
    (legal : call.Legal platform (state.machine.view task))
    (entered : call.enter platform (state.machine.view task) = .ok (.inl pending)) :
    pending.call = call ∧ (∃ left, state.machine.Waits heaps alike pid pending left) ∧
      state.Keeps alike { state with pending := Function.update state.pending pid (some pending) }
        heaps heaps (.enter pid call) := by
  obtain ⟨strategy, current⟩ := sound.owns.strategy
  have holds := sound.owns.holds pid task (state.machine.runs_of_running here running)
  obtain ⟨same, heap, left, found, follows, bound⟩ :=
    Call.enter_follows holds current (alike.refl' strategy) legal entered
  refine ⟨same, ⟨left, task, heap, strategy, here, running, found, current, follows, bound⟩, ?_⟩
  intro other before count there waits stays
  have different : other ≠ pid := by
    rintro rfl
    rw [idle] at there
    cases there
  exact ⟨before, count, (Function.update_of_ne different _ _).trans there, rfl, waits, le_rfl⟩

/-- A pending call takes a step that does not end it. -/
theorem Sound.step (sound : state.Sound alike heaps) {pid : Nat} {task : Task}
    {pending next : Pending} (here : state.machine.tasks pid = some task)
    (there : state.pending pid = some pending)
    (went : pending.step platform (state.machine.view task) = .ok (.inl next)) :
    (∃ left, state.machine.Waits heaps alike pid next left) ∧
      state.Keeps alike { state with pending := Function.update state.pending pid (some next) }
        heaps heaps (.step pid) := by
  have onward {left : Nat} (waits : state.machine.Waits heaps alike pid pending left) :
      next.call = pending.call ∧ ∃ fewer, state.machine.Waits heaps alike pid next fewer ∧
        fewer < left := by
    rcases (waits.step sound.owns here).2 with
      ⟨after, fewer, stepped, call, further, less⟩ | ⟨_, outcome, stepped, _⟩
    · obtain rfl := Sum.inl.inj (Except.ok.inj (stepped.symm.trans went))
      exact ⟨call, fewer, further, less⟩
    · rw [stepped] at went
      cases went
  obtain ⟨left, waits⟩ := sound.waits pid pending there
  obtain ⟨_, fewer, further, _⟩ := onward waits
  refine ⟨⟨fewer, further⟩, ?_⟩
  intro other before count was waited stays
  by_cases same : other = pid
  · subst same
    obtain rfl := Option.some.inj (was.symm.trans there)
    obtain ⟨call, fewer, further, less⟩ := onward waited
    refine ⟨next, fewer, Function.update_self _ _ _, call, further, ?_⟩
    rw [if_pos rfl]
    exact less
  · refine ⟨before, count, (Function.update_of_ne same _ _).trans was, rfl, waited, ?_⟩
    rw [if_neg fun own => same (PreemptedEvent.step.inj own).symm]
    exact le_rfl

/-- A call returns, after some steps or at once. -/
theorem Sound.returns (sound : state.Sound alike heaps) (fair : alike ≤ sameBestFit)
    {pid object : Nat} {task : Task} {outcome : Outcome} {strategy : AllocationStrategy}
    (event : Event) (rest : Nat → Option Pending) (here : state.machine.tasks pid = some task)
    (running : task.status = .running) (legal : event.call.Legal platform (state.machine.view task))
    (provides : state.machine.Provides platform task object event.call)
    (current : state.machine.currentStrategy = strategy.value)
    (undisturbed : ∀ new : AllocationStrategy, event.call = .switchStrategy new.value →
      state.Allocates → alike strategy new)
    (returned : event.call.MayReturn platform (alike strategy) (state.machine.view task) outcome)
    (answered : outcome.answer = event.answer)
    (same : ∀ other, other ≠ pid → rest other = state.pending other) :
    ∃ nextHeaps : Nat → Option (Heap platform),
      (state.machine.commit pid task object outcome).Owns nextHeaps ∧
        state.Keeps alike ⟨state.machine.commit pid task object outcome, rest⟩ heaps nextHeaps
          (.returns pid object event) ∧
            state.machine.RacingStep platform alike (.step (.call pid object event))
              (state.machine.commit pid task object outcome) := by
  obtain ⟨nextHeaps, owns, kept⟩ :=
    sound.owns.call_waits fair here running legal provides current returned answered
  refine ⟨nextHeaps, owns, ?_, .call here running legal provides current returned answered⟩
  intro other pending left there waits stays
  have different : other ≠ pid := by
    rintro rfl
    exact stays object event rfl
  refine ⟨pending, left, (same other different).trans there, rfl,
    kept other pending left different waits fun new switches allocates => ?_, le_rfl⟩
  obtain ⟨environment, size, call⟩ := allocates
  exact undisturbed new switches ⟨other, pending, environment, size, there, call⟩

/-- Every step of the system with pending calls keeps it sound and keeps the pending calls, and is
seen as a step of the system in which calls are one step, or not at all. -/
theorem Sound.preempted (sound : state.Sound alike heaps) (fair : alike ≤ sameBestFit)
    {event : PreemptedEvent}
    (step : Preempted.Step platform alike state event later) :
    ∃ nextHeaps : Nat → Option (Heap platform), later.Sound alike nextHeaps ∧
      state.Keeps alike later heaps nextHeaps event ∧
        Run (Machine.RacingStep platform alike) state.machine event.completed
          later.machine := by
  cases step with
  | @enter pid task call pending here running idle legal entered =>
    obtain ⟨_, ⟨_, waits⟩, keeps⟩ := sound.enter here running idle legal entered
    exact ⟨heaps, sound.update waits, keeps, Run.nil _⟩
  | @pass pid object task event outcome here running idle legal provides undisturbed entered
      answered =>
    obtain ⟨strategy, current⟩ := sound.owns.strategy
    obtain ⟨nextHeaps, owns, keeps, seen⟩ := sound.returns fair event state.pending here running
      legal provides current (fun new => undisturbed strategy new current)
      (Call.mayReturn_of_invoke current (alike.refl' strategy) (Call.enter_returns entered 0))
      answered fun other _ => rfl
    refine ⟨nextHeaps, sound.of_keeps owns keeps ?_, keeps, run_singleton.mpr seen⟩
    intro other found there
    refine ⟨⟨found, there⟩, ?_⟩
    rintro _ _ ⟨⟩
    rw [idle] at there
    cases there
  | @step pid task pending next here there went =>
    obtain ⟨⟨_, waits⟩, keeps⟩ := sound.step here there went
    exact ⟨heaps, sound.update waits, keeps, Run.nil _⟩
  | @finish pid object task pending outcome here there went =>
    obtain ⟨left, waits⟩ := sound.waits pid pending there
    obtain ⟨legal, provides⟩ := waits.legal sound.owns here object
    obtain ⟨running, ⟨_, _, stepped, _⟩ | ⟨result, strategy, stepped, current, returned⟩⟩ :=
      waits.step sound.owns here
    · rw [stepped] at went
      cases went
    obtain rfl := Sum.inr.inj (Except.ok.inj (stepped.symm.trans went))
    obtain ⟨nextHeaps, owns, keeps, seen⟩ := sound.returns fair ⟨pending.call, result.answer⟩
      (Function.update state.pending pid none) here running legal provides current
      (fun new switches => absurd switches (pending.call_ne_switchStrategy new.value)) returned
      rfl fun other different => Function.update_of_ne different _ _
    refine ⟨nextHeaps, sound.of_keeps owns keeps ?_, keeps, run_singleton.mpr seen⟩
    intro other after now
    rcases update_eq_some.mp now with ⟨_, none⟩ | ⟨different, was⟩
    · cases none
    · refine ⟨⟨after, was⟩, ?_⟩
      rintro _ _ ⟨⟩
      exact different rfl
  | @other event next noCall idle step =>
    obtain ⟨nextHeaps, owns, waits⟩ := sound.owns.other_waits step noCall
    have keeps :
        state.Keeps alike { state with machine := next } heaps nextHeaps (.other event) := by
      intro pid pending left there waited stays
      refine ⟨pending, left, there, rfl, waits pid pending left ?_ waited, le_rfl⟩
      intro forks
      rw [idle pid forks] at there
      cases there
    exact ⟨nextHeaps, sound.of_keeps owns keeps fun pid pending there =>
      ⟨⟨pending, there⟩, by rintro _ _ ⟨⟩⟩, keeps,
      run_singleton.mpr
        (.other (fun pid object made same => noCall ⟨pid, object, made, same⟩) step)⟩

/-! ### Runs -/

theorem Step.mono {other : Setoid AllocationStrategy} {event : PreemptedEvent}
    (step : Preempted.Step platform alike state event later) (coarser : alike ≤ other) :
    Preempted.Step platform other state event later := by
  cases step with
  | enter here running idle legal entered => exact .enter here running idle legal entered
  | pass here running idle legal provides undisturbed entered answered =>
    exact .pass here running idle legal provides
      (fun old new current switches allocates =>
        coarser (undisturbed old new current switches allocates)) entered answered
  | step here there went => exact .step here there went
  | finish here there went => exact .finish here there went
  | other noCall idle step => exact .other noCall idle step

/-- A task whose call is pending comes to where the call has returned. -/
theorem Sound.finishes (sound : state.Sound alike heaps) {pid left : Nat} {task : Task}
    {pending : Pending} (here : state.machine.tasks pid = some task)
    (there : state.pending pid = some pending)
    (waits : state.machine.Waits heaps alike pid pending left) (object : Nat) :
    ∃ count outcome strategy, count ≤ left ∧
      Run (Preempted.Step platform alike) state
          (List.replicate count (.step pid) ++ [.returns pid object ⟨pending.call, outcome.answer⟩])
          ⟨state.machine.commit pid task object outcome,
            Function.update state.pending pid none⟩ ∧
        state.machine.currentStrategy = strategy.value ∧
          pending.call.MayReturn platform (alike strategy) (state.machine.view task) outcome := by
  induction left using Nat.strong_induction_on generalizing state pending with
  | _ left inductionHypothesis =>
    rcases (waits.step sound.owns here).2 with
      ⟨next, fewer, went, call, further, less⟩ | ⟨outcome, strategy, went, current, returned⟩
    · have first : Preempted.Step platform alike state (.step pid)
          { state with pending := Function.update state.pending pid (some next) } :=
        .step here there went
      obtain ⟨count, outcome, strategy, bound, rest, current, returned⟩ :=
        inductionHypothesis fewer less (sound.update further) here (Function.update_self _ _ _)
          further
      rw [Function.update_idem] at rest
      rw [call] at rest returned
      refine ⟨count + 1, outcome, strategy, by omega, ?_, current, returned⟩
      rw [List.replicate_succ, List.cons_append]
      exact Run.cons first rest
    · exact ⟨0, outcome, strategy, Nat.zero_le _,
        run_singleton.mpr (.finish here there went), current, returned⟩

/-- A step of the system in which calls are one step is a run of the system with pending calls. -/
theorem exists_run_of_systemStep (owns : machine.Owns heaps) {event : SystemEvent}
    (step : machine.SystemStep platform event next) :
    ∃ made, Run (Preempted.Step platform ⊥) ⟨machine, fun _ => none⟩ made
        ⟨next, fun _ => none⟩ ∧
      made.flatMap PreemptedEvent.completed = [event] := by
  by_cases isCall : event.IsCall
  · obtain ⟨pid, object, event, rfl⟩ := isCall
    cases step with
    | @call _ _ fuel task _ outcome here running legal provides returned answered =>
    have quiet : ¬ (Preempted.mk machine fun _ => none).Allocates := by
      rintro ⟨_, _, _, _, ⟨⟩, _⟩
    rcases Call.enter_or (machine.view task) event.call with ⟨pending, entered⟩ | same
    · have sound : (Preempted.mk machine fun _ => none).Sound ⊥ heaps := ⟨owns, by rintro _ _ ⟨⟩⟩
      obtain ⟨call, ⟨left, waits⟩, _⟩ := sound.enter here running rfl legal entered
      have first : Preempted.Step platform ⊥ ⟨machine, fun _ => none⟩ (.enter pid event.call)
          ⟨machine, Function.update (fun _ => none) pid (some pending)⟩ :=
        .enter here running rfl legal entered
      obtain ⟨count, result, strategy, _, rest, current, again⟩ :=
        (sound.update waits).finishes here (Function.update_self _ _ _) waits object
      rw [call] at rest again
      obtain ⟨_, again⟩ := again.invoke current
      obtain rfl := invoke_unique again returned
      rw [Function.update_idem, Function.update_eq_self, answered] at rest
      refine ⟨_, Run.cons first rest, ?_⟩
      simp [List.flatMap_replicate, PreemptedEvent.completed]
    · have entered : event.call.enter platform (machine.view task) = .ok (.inr outcome) := by
        rw [same fuel, returned]
        rfl
      refine ⟨[.returns pid object event], run_singleton.mpr (.pass here running rfl legal provides
        (fun _ _ _ _ allocates => absurd allocates quiet) entered answered), rfl⟩
  · refine ⟨[.other event], run_singleton.mpr (.other isCall (fun _ _ => rfl) step), rfl⟩

/-- From where no call is pending, a run in which calls are one step is a run of the system with
pending calls. -/
theorem exists_run_of_systemRun (owns : machine.Owns heaps) {events : List SystemEvent}
    (run : Run (Machine.SystemStep platform) machine events next) :
    ∃ made, Run (Preempted.Step platform ⊥) ⟨machine, fun _ => none⟩ made
        ⟨next, fun _ => none⟩ ∧
      made.flatMap PreemptedEvent.completed = events := by
  induction run generalizing heaps with
  | nil state => exact ⟨[], Run.nil _, rfl⟩
  | cons here _ inductionHypothesis =>
    obtain ⟨front, first, seen⟩ := exists_run_of_systemStep owns here
    obtain ⟨nextHeaps, nextOwns⟩ := owns.systemStep here
    obtain ⟨back, rest, remaining⟩ := inductionHypothesis nextOwns
    refine ⟨front ++ back, run_append.mpr ⟨_, first, rest⟩, ?_⟩
    rw [List.flatMap_append, seen, remaining]
    rfl

/-- Every run of the system with pending calls keeps it sound, and is seen as a run in which calls
are one step. -/
theorem Sound.run (sound : state.Sound alike heaps) (fair : alike ≤ sameBestFit)
    {made : List PreemptedEvent} (run : Run (Preempted.Step platform alike) state made later) :
    (∃ laterHeaps : Nat → Option (Heap platform), later.Sound alike laterHeaps) ∧
      Run (Machine.RacingStep platform alike) state.machine
        (made.flatMap PreemptedEvent.completed) later.machine := by
  have start : state.Shows platform alike state.machine := ⟨⟨heaps, sound⟩, rfl⟩
  have matched (before : Preempted) (event : PreemptedEvent) (after : Preempted)
      (shown : Machine) (related : before.Shows platform alike shown)
      (step : Preempted.Step platform alike before event after) :
      ∃ next, Run (Machine.RacingStep platform alike) shown event.completed next ∧
        after.Shows platform alike next := by
    obtain ⟨⟨_, sound⟩, rfl⟩ := related
    obtain ⟨nextHeaps, nextSound, _, seen⟩ := sound.preempted fair step
    exact ⟨after.machine, seen, ⟨nextHeaps, nextSound⟩, rfl⟩
  obtain ⟨_, seen, laterSound, rfl⟩ := run.simulate start matched
  exact ⟨laterSound, seen⟩

/-- A call that does not return stays pending, and takes no more steps than are left to it. -/
theorem Sound.waits_of_run (sound : state.Sound alike heaps) (fair : alike ≤ sameBestFit)
    {pid left : Nat} {pending : Pending} (there : state.pending pid = some pending)
    (waits : state.machine.Waits heaps alike pid pending left) {more : List PreemptedEvent}
    (run : Run (Preempted.Step platform alike) state more later)
    (unreturned : ∀ object event, .returns pid object event ∉ more) :
    ∃ laterHeaps : Nat → Option (Heap platform), later.Sound alike laterHeaps ∧
      ∃ next fewer, later.pending pid = some next ∧ next.call = pending.call ∧
        later.machine.Waits laterHeaps alike pid next fewer ∧
          fewer + more.count (.step pid) ≤ left := by
  induction run generalizing heaps left pending with
  | nil state => exact ⟨heaps, sound, pending, left, there, rfl, waits, le_rfl⟩
  | @cons first second last event events here _ inductionHypothesis =>
    obtain ⟨nextHeaps, nextSound, keeps, _⟩ := sound.preempted fair here
    obtain ⟨next, fewer, found, call, onward, less⟩ := keeps pid pending left there waits
      fun object made same => unreturned object made (same ▸ List.mem_cons_self)
    obtain ⟨laterHeaps, laterSound, last, least, stays, same, further, bound⟩ :=
      inductionHypothesis nextSound found onward
        fun object made member => unreturned object made (List.mem_cons_of_mem _ member)
    refine ⟨laterHeaps, laterSound, last, least, stays, same.trans call, further, ?_⟩
    rw [List.count_cons]
    simp only [beq_iff_eq]
    omega

end Preempted

/-! ### Calls are atomic -/

theorem Machine.Booted.sound (booted : machine.Booted) (alike : Setoid AllocationStrategy) :
    ∃ heaps : Nat → Option (Heap platform),
      (Preempted.mk machine fun _ => none).Sound alike heaps :=
  ⟨_, booted.owns, by rintro _ _ ⟨⟩⟩

/-- As long as the strategy stays what it is while an allocation is pending: what is seen of a
system whose calls are interrupted, with all answers and states, is what may be seen of the system
in which every call is one step. -/
theorem preempted_iff (booted : machine.Booted) {events : List SystemEvent} {last : Machine} :
    (∃ made pending,
        Run (Preempted.Step platform ⊥) ⟨machine, fun _ => none⟩ made ⟨last, pending⟩ ∧
          made.flatMap PreemptedEvent.completed = events) ↔
      Run (Machine.SystemStep platform) machine events last := by
  obtain ⟨heaps, sound⟩ := @Machine.Booted.sound platform machine booted ⊥
  constructor
  · rintro ⟨made, pending, run, rfl⟩
    exact (sound.run bot_le run).2.mono fun _ _ _ step => step.systemStep
  · intro run
    obtain ⟨made, went, seen⟩ := Preempted.exists_run_of_systemRun sound.owns run
    exact ⟨made, _, went, seen⟩

/-- `INIT_TASK` has allocated 40 bytes, is in the loop of a free, and has written to its block. -/
theorem Preempted.exists_interrupted : ∃ front machine pending,
    Run (Preempted.Step Platform.i386 ⊥) ⟨Machine.boot, fun _ => none⟩
        (front ++ [.enter 0 (.free 0x2000), .other (.write 0 0x1008 42)])
        ⟨machine, Function.update (fun _ => none) 0 (some pending)⟩ ∧
      pending.call = .free 0x2000 ∧ front.flatMap PreemptedEvent.completed =
        [.step (.call 0 7 ⟨.alloc .secondPage 40, ⟨0, some 0x1008⟩⟩)] := by
  obtain ⟨machine, call, _, tasks, record, _, listed, _⟩ := Machine.exists_allocated
  have start : Machine.SystemStep Platform.i386 Machine.boot (.step _) machine := call
  obtain ⟨front, went, seen⟩ := Preempted.exists_run_of_systemStep Machine.booted_boot.owns start
  have here : machine.tasks 0 = some { Task.initTask with tsoMm := 7 } := by
    rw [tasks]
    rfl
  have current : (machine.view { Task.initTask with tsoMm := 7 }).currentMm =
      some ⟨0x1000, 0x1000, 32768, 32720⟩ := record
  have entered : Call.enter Platform.i386 (machine.view { Task.initTask with tsoMm := 7 })
      (.free 0x2000) = .ok (.inl (.walking 0x2000 (Walk.at Platform.i386 0x1000
        (nextOf Platform.i386 (machine.spaces 0).memory 0x1000)))) := by
    rw [Call.enter, current]
    rfl
  have enter :
      Preempted.Step Platform.i386 ⊥ ⟨machine, fun _ => none⟩ (.enter 0 (.free 0x2000)) _ :=
    .enter here rfl rfl (by
      intro unmapped
      rw [current] at unmapped
      cases unmapped) entered
  have write := Machine.write_allocated tasks record listed
  refine ⟨front, _, _, run_append.mpr ⟨_, went, Run.cons enter (run_singleton.mpr
    (.other ?_ (by rintro _ ⟨⟩) write))⟩, rfl, seen⟩
  rintro ⟨_, _, _, ⟨⟩⟩

theorem preempted_sample : ∃ front back answer last,
    Run (Preempted.Step Platform.i386 ⊥) ⟨Machine.boot, fun _ => none⟩
        (front ++ [.enter 0 (.free 0x2000), .other (.write 0 0x1008 42)] ++ back)
        ⟨last, fun _ => none⟩ ∧
      Run (Machine.SystemStep Platform.i386) Machine.boot
        [.step (.call 0 7 ⟨.alloc .secondPage 40, ⟨0, some 0x1008⟩⟩), .write 0 0x1008 42,
          .step (.call 0 7 ⟨.free 0x2000, answer⟩)] last := by
  obtain ⟨front, machine, pending, run, call, seen⟩ := Preempted.exists_interrupted
  obtain ⟨_, start⟩ := @Machine.Booted.sound Platform.i386 Machine.boot Machine.booted_boot ⊥
  obtain ⟨⟨heaps, sound⟩, _⟩ := start.run bot_le run
  obtain ⟨left, waits⟩ := sound.waits 0 pending rfl
  obtain ⟨task, _, _, here, _⟩ := id waits
  obtain ⟨count, outcome, _, _, rest, _⟩ := sound.finishes here rfl waits 7
  rw [Function.update_idem, Function.update_eq_self, call] at rest
  have whole := run_append.mpr ⟨_, run, rest⟩
  refine ⟨front, _, outcome.answer, _, whole,
    (preempted_iff Machine.booted_boot).mp ⟨_, _, whole, ?_⟩⟩
  simp [List.flatMap_append, List.flatMap_replicate, PreemptedEvent.completed, seen]

end TsoAlloc
