/-
This file compares the strategies by what they leave for the next request. Placing a
region shortens one gap and leaves the others. `BEST_FIT` shortens a longest gap only
when every gap that would do is as long, and `WORST_FIT` always does. So a request that
would be met after an allocation under `WORST_FIT` would be met after the same allocation
under any strategy, and one that would be met after it under any strategy would be met
after it under `BEST_FIT`.
-/

import TsoAlloc.StrategyPlacement

namespace TsoAlloc

open Extents Transition

/-- After a switch to a strategy an allocation returns 0 and leaves a state. -/
def Kernel.ServedBy (platform : Platform) (kernel : Kernel) (strategy : AllocationStrategy)
    (environment : Environment) (size : Nat) (after : Kernel) : Prop :=
  ∃ fuel outcome, sysTsoMmAlloc platform fuel environment size
      (sysTsoMmSwitchStrategy strategy.value kernel).kernel = .ok outcome ∧
    outcome.ret = 0 ∧ outcome.kernel = after

variable {platform : Platform} {kernel : Kernel}

/-! ### The gaps that a placed region leaves -/

namespace Layout

variable (layout : Layout platform)

theorem nodup_gaps : layout.gaps.Nodup :=
  layout.gaps_increasing.imp fun below same => absurd (congrArg Room.base same) below.ne

/-- Placing a region replaces its room by an empty gap before it and the rest of the room. -/
theorem gaps_place {size : Nat} {room : Room Region}
    (admits : layout.Admits (platform.headerSize + size) room) :
    ∃ before after, layout.gaps = before ++ room :: after ∧
      (layout.place size room admits).gaps.map Room.length =
        before.map Room.length ++ 0 :: (room.length - (platform.headerSize + size)) ::
          after.map Room.length := by
  obtain ⟨front, back, split, rfl⟩ := layout.mem_gaps.mp admits.1
  obtain ⟨before, after, whole, joined⟩ := @rooms_remove Region Region.addr (Region.top platform)
    layout.start layout.stop none front back
    ⟨roomBase (Region.top platform) layout.start front, size⟩
  refine ⟨before, after, ?_, ?_⟩
  · rw [Layout.gaps, split, joined, Option.or_none]
  · show (rooms Region.addr (Region.top platform) none layout.start layout.stop
      (insertRegion layout.regions _)).map Room.length = _
    rw [layout.insertRegion_eq split rfl, whole, List.map_append, List.map_cons, List.map_cons,
      Nat.sub_self, Region.top, Nat.sub_add_eq]

/-- After a region is placed a gap is longer than some bytes when the rest of its room is, or when
another gap was. -/
theorem longer_place_iff {size : Nat} {room : Room Region}
    (admits : layout.Admits (platform.headerSize + size) room) {bytes : Nat} :
    (∃ gap ∈ (layout.place size room admits).gaps, bytes < gap.length) ↔
      platform.headerSize + size + bytes < room.length ∨
        ∃ other ∈ layout.gaps, other ≠ room ∧ bytes < other.length := by
  obtain ⟨before, after, gaps, placed⟩ := layout.gaps_place admits
  have distinct := layout.nodup_gaps
  rw [gaps, List.nodup_middle, List.nodup_cons] at distinct
  have others : ∀ other, (other ∈ layout.gaps ∧ other ≠ room) ↔ other ∈ before ++ after := by
    intro other
    rw [gaps, List.mem_append, List.mem_cons, List.mem_append]
    constructor
    · rintro ⟨left | rfl | right, different⟩
      · exact Or.inl left
      · exact absurd rfl different
      · exact Or.inr right
    · intro member
      refine ⟨member.imp_right Or.inr, ?_⟩
      rintro rfl
      exact distinct.1 (List.mem_append.mpr member)
  have lengths : (∃ gap ∈ (layout.place size room admits).gaps, bytes < gap.length) ↔
      ∃ length ∈ (layout.place size room admits).gaps.map Room.length, bytes < length := by
    simp only [List.mem_map, exists_exists_and_eq_and]
  have kept : (∃ other ∈ layout.gaps, other ≠ room ∧ bytes < other.length) ↔
      ∃ other ∈ before ++ after, bytes < other.length := by
    simp only [← others, and_assoc]
  have rest : bytes < room.length - (platform.headerSize + size) ↔
      platform.headerSize + size + bytes < room.length := by omega
  rw [lengths, placed, kept, ← rest]
  simp only [List.mem_append, List.mem_cons, List.mem_map, or_and_right, exists_or,
    exists_exists_and_eq_and, exists_eq_left, Nat.not_lt_zero, false_or]
  exact or_left_comm

/-- What is longer after a region is placed is also longer after it is placed in another room that
is no longer: the room that was left alone makes up for the one that was used. -/
theorem longer_of_shorter {size : Nat} {room other : Room Region}
    (admits : layout.Admits (platform.headerSize + size) room)
    (otherAdmits : layout.Admits (platform.headerSize + size) other)
    (shorter : other.length ≤ room.length) {bytes : Nat}
    (longer : ∃ gap ∈ (layout.place size room admits).gaps, bytes < gap.length) :
    ∃ gap ∈ (layout.place size other otherAdmits).gaps, bytes < gap.length := by
  by_cases same : room = other
  · subst same
    exact longer
  · refine (layout.longer_place_iff otherAdmits).mpr (Or.inr ?_)
    rcases (layout.longer_place_iff admits).mp longer with rest | ⟨third, gap, _, long⟩
    · exact ⟨room, admits.1, same, by omega⟩
    · by_cases chosen : third = other
      · exact ⟨room, admits.1, same, by rw [chosen] at long; omega⟩
      · exact ⟨third, gap, chosen, long⟩

/-- Two gaps of which a strategy prefers the one have lengths in the order of the strategy. -/
theorem length_le_of_choose {bytes : Nat} {strategy : AllocationStrategy}
    {room best worst : Room Region}
    (viaWorst : layout.choose .worstFit bytes = some worst)
    (via : layout.choose strategy bytes = some room)
    (viaBest : layout.choose .bestFit bytes = some best) :
    best.length ≤ room.length ∧ room.length ≤ worst.length := by
  by_cases empty : layout.regions = []
  · rw [layout.choose_of_empty empty] at viaWorst via viaBest
    rw [Option.some.inj (via.symm.trans viaWorst), Option.some.inj (viaBest.symm.trans viaWorst)]
    exact ⟨le_rfl, le_rfl⟩
  · simp only [choose, empty, if_false] at viaWorst via viaBest
    exact ⟨List.le_of_mem_argmin (mem_of_pick via) viaBest,
      List.le_of_mem_argmax (mem_of_pick via) viaWorst⟩

end Layout

/-! ### The next request -/

/-- A request that is answered with 0 has placed a region in the room that the strategy chooses. -/
theorem Heap.chosen_of_ret {heap : Heap platform} {strategy : AllocationStrategy}
    {environment : Environment} {size : Nat}
    (zero : (heap.alloc strategy environment size).2.ret = 0) :
    ∃ room, ∃ chosen : heap.choose strategy (platform.headerSize + size) = some room,
      (heap.alloc strategy environment size).1 =
        heap.place size room (heap.admits_of_choose chosen) := by
  rcases Option.eq_none_or_eq_some (heap.choose strategy (platform.headerSize + size)) with
    nothing | ⟨room, chosen⟩
  · rw [Heap.alloc_of_none nothing] at zero
    cases zero
  · exact ⟨room, chosen, by rw [Heap.alloc_of_some chosen]⟩

/-- An allocation that returns 0 leaves the heap with the region in the room that the strategy
chooses. -/
theorem Kernel.Models.servedBy {task : TaskState platform} (models : kernel.Models task)
    {strategy : AllocationStrategy} {environment : Environment} {size : Nat} {after : Kernel}
    (grants : environment.Grants platform)
    (fits : platform.headerSize + size < platform.modulus)
    (served : kernel.ServedBy platform strategy environment size after) :
    ∃ room, ∃ chosen : (task.heapFor grants).choose strategy (platform.headerSize + size) =
        some room,
      after.Models (⟨strategy, some ((task.heapFor grants).place size room
        ((task.heapFor grants).admits_of_choose chosen))⟩ : TaskState platform) := by
  obtain ⟨fuel, outcome, returned, zero, rfl⟩ := served
  have switched : (sysTsoMmSwitchStrategy strategy.value kernel).kernel.Models
      (⟨strategy, task.heap⟩ : TaskState platform) := ⟨rfl, models.2.congr rfl rfl⟩
  obtain ⟨expected, expectedReturned, realizes, refined⟩ :=
    switched.alloc_realizes grants fits (Nat.lt_succ_self _)
  obtain rfl := invoke_unique
    (show invoke platform fuel _ (.alloc environment size) = .ok outcome from returned)
    expectedReturned
  have answered : ((task.heapFor grants).alloc strategy environment size).2.ret = 0 :=
    (congrArg Answer.ret realizes.answer).symm.trans zero
  obtain ⟨room, chosen, placed⟩ := Heap.chosen_of_ret answered
  refine ⟨room, chosen, ?_⟩
  rw [← placed]
  exact refined

/-- In a state that models a task with a placed region, a request is met exactly when some gap is
longer than its region. -/
theorem Kernel.Models.serves_placed_iff {strategy : AllocationStrategy} {heap : Heap platform}
    {size : Nat} {room : Room Region} {admits : heap.Admits (platform.headerSize + size) room}
    (models : kernel.Models (⟨strategy, some (heap.place size room admits)⟩ : TaskState platform))
    {environment : Environment} (grants : environment.Grants platform) {next : Nat}
    (fits : platform.headerSize + next < platform.modulus) :
    kernel.Serves platform environment next ↔
      ∃ gap ∈ (heap.toLayout.place size room admits).gaps,
        platform.headerSize + next < gap.length := by
  refine (models.serves_iff grants fits).trans (exists_congr fun gap => and_congr_right fun _ => ?_)
  have listed : (heap.place size room admits).regions ≠ [] :=
    List.ne_nil_of_mem ((heap.mem_place admits).mpr (Or.inl rfl))
  constructor
  · rintro (longer | ⟨empty, _⟩)
    · exact longer
    · exact absurd empty listed
  · exact Or.inl

/-- In every state that a run of legal calls reaches, what would be met after an allocation under
`WORST_FIT` would be met after it under any strategy, and what would be met after it under any
strategy would be met after it under `BEST_FIT`. -/
theorem serves_next_of_run {start after worst middle best : Kernel} {events : List Event}
    (fresh : start.Fresh) (run : Run (LegalStep platform) start events after)
    {strategy : AllocationStrategy} {environment : Environment} {size : Nat}
    (grants : environment.Grants platform) (fits : platform.headerSize + size < platform.modulus)
    (viaWorst : after.ServedBy platform .worstFit environment size worst)
    (via : after.ServedBy platform strategy environment size middle)
    (viaBest : after.ServedBy platform .bestFit environment size best)
    {nextEnvironment : Environment} {next : Nat} (nextGrants : nextEnvironment.Grants platform)
    (nextFits : platform.headerSize + next < platform.modulus) :
    (worst.Serves platform nextEnvironment next → middle.Serves platform nextEnvironment next) ∧
      (middle.Serves platform nextEnvironment next →
        best.Serves platform nextEnvironment next) := by
  obtain ⟨task, models⟩ := models_of_run fresh run
  obtain ⟨longest, worstChosen, worstModels⟩ := models.servedBy grants fits viaWorst
  obtain ⟨room, chosen, middleModels⟩ := models.servedBy grants fits via
  obtain ⟨shortest, bestChosen, bestModels⟩ := models.servedBy grants fits viaBest
  obtain ⟨low, high⟩ := (task.heapFor grants).length_le_of_choose worstChosen chosen bestChosen
  rw [worstModels.serves_placed_iff nextGrants nextFits,
    middleModels.serves_placed_iff nextGrants nextFits,
    bestModels.serves_placed_iff nextGrants nextFits]
  exact ⟨Layout.longer_of_shorter _ _ _ high, Layout.longer_of_shorter _ _ _ low⟩

/-- A computed allocation that returns 0 serves the request. -/
theorem Kernel.servedBy_of_computed (platform : Platform) (fuel : Nat) (kernel : Kernel)
    (strategy : AllocationStrategy) (environment : Environment) (size : Nat)
    (computed : (sysTsoMmAlloc platform fuel environment size
      (sysTsoMmSwitchStrategy strategy.value kernel).kernel).toOption.map Outcome.ret = some 0) :
    ∃ after, kernel.ServedBy platform strategy environment size after := by
  obtain ⟨outcome, returned, zero⟩ := exists_ok Outcome.ret computed
  exact ⟨outcome.kernel, fuel, outcome, returned, zero, rfl⟩

theorem serves_next_sample : ∃ after worst middle best,
    Run (LegalStep Platform.i386) (Kernel.boot fun _ => 0)
        [⟨.alloc .secondPage 40, 0, some 0x1008⟩, ⟨.alloc .secondPage 60, 0, some 0x1038⟩,
          ⟨.free 0x1008, 0, none⟩] after ∧
      after.ServedBy Platform.i386 .worstFit .secondPage 20 worst ∧
      after.ServedBy Platform.i386 .firstFit .secondPage 20 middle ∧
      after.ServedBy Platform.i386 .bestFit .secondPage 20 best ∧
      (worst.Serves Platform.i386 .secondPage 32660 →
        middle.Serves Platform.i386 .secondPage 32660) ∧
      (middle.Serves Platform.i386 .secondPage 32660 →
        best.Serves Platform.i386 .secondPage 32660) := by
  obtain ⟨events, after, run, seen⟩ := exists_run Platform.i386 9 (Kernel.boot fun _ => 0)
    [.alloc .secondPage 40, .alloc .secondPage 60, .free 0x1008]
    (fun state => (state.1, [AllocationStrategy.worstFit, .firstFit, .bestFit].map fun strategy =>
      (sysTsoMmAlloc Platform.i386 9 .secondPage 20
        (sysTsoMmSwitchStrategy strategy.value state.2).kernel).toOption.map Outcome.ret))
    (show _ = some ([⟨.alloc .secondPage 40, 0, some 0x1008⟩,
      ⟨.alloc .secondPage 60, 0, some 0x1038⟩, ⟨.free 0x1008, 0, none⟩],
      [some 0, some 0, some 0]) by decide +kernel)
  obtain ⟨rfl, served⟩ := Prod.mk.inj seen
  simp only [List.map_cons, List.map_nil, List.cons.injEq, and_true] at served
  obtain ⟨worst, viaWorst⟩ := Kernel.servedBy_of_computed _ _ _ _ _ _ served.1
  obtain ⟨middle, via⟩ := Kernel.servedBy_of_computed _ _ _ _ _ _ served.2.1
  obtain ⟨best, viaBest⟩ := Kernel.servedBy_of_computed _ _ _ _ _ _ served.2.2
  have grants : Environment.secondPage.Grants Platform.i386 := by decide
  exact ⟨after, worst, middle, best, run, viaWorst, via, viaBest,
    serves_next_of_run (Kernel.fresh_boot _) run grants (by decide) viaWorst via viaBest grants
      (by decide)⟩

end TsoAlloc
