/-
This file compares two runs of the system in which the mapping of a task lies at different
addresses. The allocator works with distances alone: the gaps, the choice of a strategy and
the place in it move with the mapping. So what a task gets is the same up to the distance
between the two mappings, whatever the memories hold, whatever the tasks write to them, and
whatever other tasks do, as long as its allocations find the same strategies in force.
-/

import TsoAlloc.Integrity

namespace TsoAlloc

open Extents Transition

/-! ### Moving upwards -/

/-- The same region in a mapping that lies some distance higher. -/
def Region.raise (distance : Nat) (region : Region) : Region :=
  ⟨region.addr + distance, region.size⟩

/-- The same call in a mapping that lies some distance higher. -/
def Call.raise (distance : Nat) : Call → Call
  | .alloc environment size =>
    .alloc { environment with vmMmap := environment.vmMmap + distance } size
  | .free addr => .free (addr + distance)
  | .switchStrategy strategy => .switchStrategy strategy

/-- The same answer in a mapping that lies some distance higher. -/
def Answer.raise (distance : Nat) (answer : Answer) : Answer where
  ret := answer.ret
  delivered := answer.delivered.map (· + distance)

/-- The same heap in a mapping that lies some distance higher. -/
structure Heap.Raised {platform : Platform} (distance : Nat) (heap other : Heap platform) :
    Prop where
  start : other.start = heap.start + distance
  regions : other.regions = heap.regions.map (Region.raise distance)

/-- Two tasks have no heap yet, or the same one some distance apart. -/
def HeapsRaised {platform : Platform} (distance : Nat) :
    Option (Heap platform) → Option (Heap platform) → Prop :=
  Option.Rel (Heap.Raised distance)

variable {platform : Platform} {distance : Nat}

theorem Region.addr_raise (distance : Nat) (region : Region) :
    (region.raise distance).addr = region.addr + distance := rfl

theorem Region.payload_raise (distance : Nat) (region : Region) :
    (region.raise distance).payload platform = region.payload platform + distance :=
  Nat.add_right_comm _ _ _

theorem Region.top_raise (distance : Nat) (region : Region) :
    (region.raise distance).top platform = region.top platform + distance :=
  Nat.add_right_comm _ _ _

/-! ### Picking among images -/

section

variable {Gap Image Measure : Type} [LinearOrder Measure]

theorem argmin_map (image : Gap → Image) (measure : Image → Measure) (gaps : List Gap) :
    (gaps.map image).argmin measure = (gaps.argmin (measure ∘ image)).map image := by
  induction gaps with
  | nil => rfl
  | cons gap gaps inductionHypothesis =>
    rw [List.map_cons, List.argmin_cons, List.argmin_cons, inductionHypothesis]
    cases gaps.argmin (measure ∘ image) with
    | none => rfl
    | some least =>
      show (if measure (image least) < measure (image gap) then _ else _) =
        Option.map image (if measure (image least) < measure (image gap) then _ else _)
      split <;> rfl

theorem argmax_map (image : Gap → Image) (measure : Image → Measure) (gaps : List Gap) :
    (gaps.map image).argmax measure = (gaps.argmax (measure ∘ image)).map image := by
  induction gaps with
  | nil => rfl
  | cons gap gaps inductionHypothesis =>
    rw [List.map_cons, List.argmax_cons, List.argmax_cons, inductionHypothesis]
    cases gaps.argmax (measure ∘ image) with
    | none => rfl
    | some greatest =>
      show (if measure (image gap) < measure (image greatest) then _ else _) =
        Option.map image (if measure (image gap) < measure (image greatest) then _ else _)
      split <;> rfl

end

/-- A strategy picks by the lengths and the order of the gaps alone. -/
theorem Layout.pick_raise (strategy : AllocationStrategy) (gaps : List (Room Region)) :
    Layout.pick strategy (gaps.map (Room.raise (Region.raise distance) distance)) =
      (Layout.pick strategy gaps).map (Room.raise (Region.raise distance) distance) := by
  cases strategy with
  | firstFit => exact List.head?_map
  | bestFit => exact argmin_map _ _ _
  | worstFit => exact argmax_map _ _ _

theorem insertRegion_raise (regions : List Region) (region : Region) :
    insertRegion (regions.map (Region.raise distance)) (region.raise distance) =
      (insertRegion regions region).map (Region.raise distance) := by
  have below : (fun other : Region => decide (other.addr < (region.raise distance).addr)) ∘
      Region.raise distance = fun other => decide (other.addr < region.addr) := by
    funext other
    simp only [Function.comp_apply, Region.raise, Nat.add_lt_add_iff_right]
  unfold insertRegion
  rw [List.takeWhile_map, List.dropWhile_map, below, List.map_append, List.map_cons]

/-! ### One call -/

namespace Heap.Raised

variable {heap other : Heap platform}

theorem gaps (raised : heap.Raised distance other) :
    other.gaps = heap.gaps.map (Room.raise (Region.raise distance) distance) := by
  have stop : other.stop = heap.stop + distance := by
    unfold Layout.stop
    rw [raised.start]
    omega
  have moved : rooms Region.addr (Region.top platform) (Option.map (Region.raise distance) none)
      (heap.start + distance) (heap.stop + distance) (heap.regions.map (Region.raise distance)) =
        heap.gaps.map (Room.raise (Region.raise distance) distance) :=
    rooms_map (Region.addr_raise distance) (Region.top_raise distance) heap.regions
  unfold Layout.gaps
  rw [raised.regions, raised.start, stop]
  exact moved

theorem used (raised : heap.Raised distance other) : other.used = heap.used := by
  unfold Layout.used
  rw [raised.regions, List.map_map]
  rfl

theorem regions_eq_nil (raised : heap.Raised distance other) :
    other.regions = [] ↔ heap.regions = [] := by
  rw [raised.regions, List.map_eq_nil_iff]

theorem choose (raised : heap.Raised distance other) (strategy : AllocationStrategy)
    (bytes : Nat) :
    other.choose strategy bytes =
      (heap.choose strategy bytes).map (Room.raise (Region.raise distance) distance) := by
  unfold Layout.choose Layout.gapsAbove
  rw [raised.gaps, List.filter_map, List.find?_map, Layout.pick_raise]
  by_cases empty : heap.regions = []
  · rw [if_pos empty, if_pos (raised.regions_eq_nil.mpr empty)]
    rfl
  · rw [if_neg empty, if_neg fun none => empty (raised.regions_eq_nil.mp none)]
    rfl

/-- An allocation gets the same place. -/
theorem alloc (raised : heap.Raised distance other) (strategy : AllocationStrategy)
    (environment : Environment) (size : Nat) :
    (heap.alloc strategy environment size).1.Raised distance
        (other.alloc strategy { environment with vmMmap := environment.vmMmap + distance } size).1 ∧
      (other.alloc strategy { environment with vmMmap := environment.vmMmap + distance } size).2 =
        (heap.alloc strategy environment size).2.raise distance := by
  have moved := raised.choose strategy (platform.headerSize + size)
  cases chosen : heap.choose strategy (platform.headerSize + size) with
  | none =>
    rw [chosen] at moved
    rw [Heap.alloc_of_none chosen, Heap.alloc_of_none moved]
    exact ⟨raised, rfl⟩
  | some room =>
    rw [chosen] at moved
    rw [Heap.alloc_of_some chosen, Heap.alloc_of_some moved]
    refine ⟨⟨raised.start, ?_⟩, ?_⟩
    · show insertRegion other.regions (Region.raise distance ⟨room.base, size⟩) = _
      rw [raised.regions, insertRegion_raise]
      rfl
    · unfold Answer.raise Room.raise
      dsimp only
      split
      · rw [Option.map_some, Nat.add_right_comm]
      · rfl

/-- A free finds the same region, or none. -/
theorem free (raised : heap.Raised distance other) (addr : Nat) :
    (heap.free addr).1.Raised distance (other.free (addr + distance)).1 ∧
      (other.free (addr + distance)).2 = (heap.free addr).2.raise distance := by
  have payloads : (fun region : Region => decide (region.payload platform ≠ addr + distance)) ∘
      Region.raise distance = fun region => decide (region.payload platform ≠ addr) := by
    funext region
    simp only [Function.comp_apply, Region.payload_raise, ne_eq, Nat.add_right_cancel_iff]
  have has : other.Has (addr + distance) ↔ heap.Has addr := by
    unfold Heap.Has
    rw [raised.regions]
    simp only [List.mem_map, exists_exists_and_eq_and, Region.payload_raise,
      Nat.add_right_cancel_iff]
  refine ⟨⟨raised.start, ?_⟩, ?_⟩
  · show other.regions.filter _ = (heap.regions.filter _).map _
    rw [raised.regions, List.filter_map, payloads]
  · unfold Heap.free Answer.raise
    simp only [has, raised.regions, List.length_map, Option.map_none]

end Heap.Raised

/-- What is recorded of a call of the task, in a mapping that lies some distance higher. -/
def raiseSteering (distance : Nat) (made : Call × Option (BitVec 32)) :
    Call × Option (BitVec 32) :=
  (made.1.raise distance, made.2)

/-- A call on heaps some distance apart, under the same strategy if it allocates, has answers that
are as far apart, and so are the heaps behind it. -/
theorem HeapCall.raised {heap other left right : Option (Heap platform)}
    {made others : BitVec 32 × Event} (here : HeapCall platform heap made left)
    (there : HeapCall platform other others right) (raised : HeapsRaised distance heap other)
    (same : steering others = raiseSteering distance (steering made)) :
    HeapsRaised distance left right ∧ others.2.answer = made.2.answer.raise distance := by
  obtain ⟨found, call, answer⟩ := made
  obtain ⟨otherFound, otherCall, otherAnswer⟩ := others
  obtain ⟨strategy, after, rfl, step, rfl⟩ := here
  obtain ⟨otherStrategy, otherAfter, rfl, otherStep, rfl⟩ := there
  obtain ⟨calls, found⟩ := Prod.mk.inj same
  dsimp only at calls found step otherStep ⊢
  cases step with
  | alloc _ _ environment size grants =>
    cases otherStep with
    | alloc _ _ otherEnvironment otherSize otherGrants =>
      obtain ⟨rfl, rfl⟩ := Call.alloc.inj calls
      obtain rfl := AllocationStrategy.value_injective (Option.some.inj found)
      have mapped : (heap.getD grants.heap).Raised distance (other.getD otherGrants.heap) := by
        cases raised with
        | none => exact ⟨rfl, rfl⟩
        | some raised => exact raised
      obtain ⟨placed, answered⟩ := mapped.alloc otherStrategy environment otherSize
      exact ⟨Option.Rel.some placed, answered⟩
    | free => cases calls
    | switchStrategy => cases calls
  | free _ before addr =>
    cases otherStep with
    | alloc => cases calls
    | free _ otherBefore otherAddr =>
      obtain rfl := Call.free.inj calls
      cases raised with
      | some raised =>
        obtain ⟨released, answered⟩ := raised.free addr
        exact ⟨Option.Rel.some released, answered⟩
    | switchStrategy => cases calls
  | switchStrategy _ later =>
    cases otherStep with
    | alloc => cases calls
    | free => cases calls
    | switchStrategy => exact ⟨raised, rfl⟩

/-- Calls on heaps some distance apart have answers that are as far apart. -/
theorem answers_raised_of_run {heap other left right : Option (Heap platform)}
    {made others : List (BitVec 32 × Event)} (run : Run (HeapCall platform) heap made left)
    (otherRun : Run (HeapCall platform) other others right)
    (raised : HeapsRaised distance heap other)
    (same : others.map steering = (made.map steering).map (raiseSteering distance)) :
    HeapsRaised distance left right ∧ (others.map fun call => call.2.answer) =
      (made.map fun call => call.2.answer).map (Answer.raise distance) := by
  induction run generalizing other others with
  | nil state =>
    obtain rfl := List.map_eq_nil_iff.mp same
    cases otherRun with
    | nil => exact ⟨raised, rfl⟩
  | cons here rest inductionHypothesis =>
    cases otherRun with
    | nil => cases same
    | cons there otherRest =>
      obtain ⟨first, further⟩ := List.cons.inj same
      obtain ⟨middle, answer⟩ := here.raised there raised first
      obtain ⟨final, answers⟩ := inductionHypothesis otherRest middle further
      refine ⟨final, ?_⟩
      rw [List.map_cons, List.map_cons, List.map_cons, answer, answers]

/-! ### Runs of the system -/

/-- The step of a task that an event of the system is, if it is one. -/
def SystemEvent.step? : SystemEvent → Option MachineEvent
  | .step event => some event
  | .write _ _ _ => none

/-- The steps of the tasks in a run of the system. -/
def stepsOf (events : List SystemEvent) : List MachineEvent := events.filterMap SystemEvent.step?

variable {machine next : Machine}

/-- What a task sees of a run of the system are its own calls on its own heap. -/
theorem Machine.Owns.systemRun_callsOf {heaps : Nat → Option (Heap platform)}
    (owns : machine.Owns heaps) (idle : machine.Idle heaps) {events : List SystemEvent}
    (run : Run (Machine.SystemStep platform) machine events next) (pid : Nat) :
    ∃ nextHeaps : Nat → Option (Heap platform), next.Owns nextHeaps ∧
      Run (HeapCall platform) (heaps pid)
        (callsOf pid machine.currentStrategy (stepsOf events)) (nextHeaps pid) := by
  induction run generalizing heaps with
  | nil state => exact ⟨heaps, owns, Run.nil _⟩
  | @cons first second last event events here rest inductionHypothesis =>
    cases event with
    | step event =>
      have step : first.Step platform event second := here
      obtain ⟨middleHeaps, middleOwns, middleIdle, follows, made⟩ := owns.observe idle step pid
      obtain ⟨nextHeaps, nextOwns, further⟩ := inductionHypothesis middleOwns middleIdle
      rw [follows] at further
      exact ⟨nextHeaps, nextOwns, run_append.mpr ⟨middleHeaps pid, made, further⟩⟩
    | write space byte value =>
      obtain ⟨_, spares, rfl⟩ := here
      have stillIdle : (first.write space byte value).Idle heaps := idle
      exact inductionHypothesis (owns.write spares value) stillIdle

/-- What a task gets depends on nothing but its own calls and the strategies that its allocations
find in force, and it moves with its mapping. Take two runs of the system in which tasks fork, make
calls and write memory, though not over headers of live regions, and a task of each that makes the
calls of the other one in a mapping that lies some distance higher: its answers, and in the end its
region list, are those of the other one, moved by that distance. -/
theorem relocated_of_runs {start otherStart otherMachine : Machine}
    {events others : List SystemEvent} (booted : start.Booted)
    (run : Run (Machine.SystemStep platform) start events machine)
    (otherBooted : otherStart.Booted)
    (otherRun : Run (Machine.SystemStep platform) otherStart others otherMachine)
    (pid other distance : Nat)
    (same : steeringOf other (stepsOf others) =
      (steeringOf pid (stepsOf events)).map (raiseSteering distance)) :
    answersOf other (stepsOf others) =
        (answersOf pid (stepsOf events)).map (Answer.raise distance) ∧
      ∀ task otherTask mm otherMm, machine.Runs pid task → otherMachine.Runs other otherTask →
        (machine.view task).currentMm = some mm →
          (otherMachine.view otherTask).currentMm = some otherMm →
            otherMm.start = mm.start + distance ∧ otherMm.free = mm.free ∧
              ∃ regions, Listed platform (machine.spaces task.mm).memory mm.firstRegion regions ∧
                Listed platform (otherMachine.spaces otherTask.mm).memory otherMm.firstRegion
                  (regions.map (Region.raise distance)) := by
  have owned : start.Owns (fun _ => none : Nat → Option (Heap platform)) := booted.owns
  have otherOwned : otherStart.Owns (fun _ => none : Nat → Option (Heap platform)) :=
    otherBooted.owns
  obtain ⟨heaps, owns, made⟩ := owned.systemRun_callsOf (fun _ _ => rfl) run pid
  obtain ⟨otherHeaps, otherOwns, otherMade⟩ :=
    otherOwned.systemRun_callsOf (fun _ _ => rfl) otherRun other
  rw [booted.strategy] at made
  rw [otherBooted.strategy] at otherMade
  obtain ⟨raised, answers⟩ := answers_raised_of_run made otherMade Option.Rel.none same
  refine ⟨answers, fun task otherTask mm otherMm runs otherRuns mapped otherMapped => ?_⟩
  obtain ⟨heap, found, represents⟩ := (owns.holds pid task runs).heap mapped
  obtain ⟨otherHeap, otherFound, otherRepresents⟩ :=
    (otherOwns.holds other otherTask otherRuns).heap otherMapped
  rw [found, otherFound] at raised
  cases raised with
  | some raised =>
    have used := raised.used
    refine ⟨?_, ?_, heap.regions, represents.listed, ?_⟩
    · rw [otherRepresents.start, raised.start, represents.start]
    · rw [otherRepresents.free, represents.free]
      unfold Heap.freeBytes
      rw [used]
    · rw [← raised.regions]
      exact otherRepresents.listed

/-- A task replaces a block twice, the second time in a mapping that lies a page higher; the first
time it has written to its stack before. -/
theorem relocated_sample : ∃ events others machine otherMachine,
    Run (Machine.SystemStep Platform.i386) Machine.boot events machine ∧
      Run (Machine.SystemStep Platform.i386) Machine.boot others otherMachine ∧
        requestsOf 0 (stepsOf events) =
          [.alloc .secondPage 40, .alloc .secondPage 60, .free 0x1008] ∧
        answersOf 0 (stepsOf others) =
          (answersOf 0 (stepsOf events)).map (Answer.raise 0x1000) := by
  have unused : Machine.boot.Spares Platform.i386 0 0xbffff000 := by
    intro pid task mm regions runs _ pointer
    have here : (if pid = 0 then some Task.initTask else none) = some task := runs.1
    split at here
    · obtain rfl := Option.some.inj here
      exact absurd rfl pointer
    · cases here
  have initRuns : Machine.boot.Runs 0 Task.initTask := ⟨rfl, trivial⟩
  have written : Machine.boot.SystemStep Platform.i386 (.write 0 0xbffff000 42)
      (Machine.boot.write 0 0xbffff000 42) := ⟨⟨0, _, initRuns, rfl⟩, unused, rfl⟩
  obtain ⟨machine, run⟩ := Machine.exists_run Platform.i386 9
    (Machine.boot.write 0 0xbffff000 42)
    [(0, 7, .alloc .secondPage 40), (0, 7, .alloc .secondPage 60), (0, 7, .free 0x1008)]
    (show _ = some [.call 0 7 ⟨.alloc .secondPage 40, ⟨0, some 0x1008⟩⟩,
      .call 0 7 ⟨.alloc .secondPage 60, ⟨0, some 0x1038⟩⟩, .call 0 7 ⟨.free 0x1008, ⟨0, none⟩⟩]
      by decide +kernel)
  obtain ⟨otherMachine, otherRun⟩ := Machine.exists_run Platform.i386 9 Machine.boot
    [(0, 7, .alloc ⟨true, 0x2000, 0⟩ 40), (0, 7, .alloc ⟨true, 0x2000, 0⟩ 60),
      (0, 7, .free 0x2008)]
    (show _ = some [.call 0 7 ⟨.alloc ⟨true, 0x2000, 0⟩ 40, ⟨0, some 0x2008⟩⟩,
      .call 0 7 ⟨.alloc ⟨true, 0x2000, 0⟩ 60, ⟨0, some 0x2038⟩⟩,
      .call 0 7 ⟨.free 0x2008, ⟨0, none⟩⟩] by decide +kernel)
  have systemRun := Run.cons written (run_steps run)
  exact ⟨_, _, machine, otherMachine, systemRun, run_steps otherRun, by decide,
    (relocated_of_runs Machine.booted_boot systemRun Machine.booted_boot (run_steps otherRun)
      0 0 0x1000 (by decide)).1⟩

end TsoAlloc
