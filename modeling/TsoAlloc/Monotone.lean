/-
This file settles what can turn a request that would be met into one that is refused. One
heap offers what another does when each gap of the other has one at least as long, and it
is empty if the other is. Freeing a region only joins gaps, so the heap that is left offers
what the heap before did; and a heap that offers as much meets every smaller request, also
when the last region went and the test of the scan gave way to that of the counter.
-/

import TsoAlloc.Releasing

namespace TsoAlloc

open Extents Transition

variable {platform : Platform} {kernel : Kernel}

/-! ### Heaps that offer as much -/

/-- Each gap of the first heap has one in the second that is at least as long, and the second is
empty if the first is. -/
structure Heap.OffersTo (heap other : Heap platform) : Prop where
  longer : ∀ room ∈ heap.gaps, ∃ wider ∈ other.gaps, room.length ≤ wider.length
  empty : heap.regions = [] → other.regions = []

namespace Heap.OffersTo

theorem refl (heap : Heap platform) : heap.OffersTo heap where
  longer := fun room member => ⟨room, member, le_rfl⟩
  empty := id

theorem trans {heap middle other : Heap platform} (first : heap.OffersTo middle)
    (second : middle.OffersTo other) : heap.OffersTo other where
  longer := by
    intro room member
    obtain ⟨wider, widerMember, le⟩ := first.longer room member
    obtain ⟨widest, widestMember, further⟩ := second.longer wider widerMember
    exact ⟨widest, widestMember, le.trans further⟩
  empty := fun none => second.empty (first.empty none)

theorem of_empty {heap other : Heap platform} (none : heap.regions = [])
    (otherNone : other.regions = []) : heap.OffersTo other where
  longer := by
    intro room member
    rw [heap.gaps_of_empty none, List.mem_singleton] at member
    rw [other.gaps_of_empty otherNone, member]
    exact ⟨_, List.mem_singleton_self _, le_rfl⟩
  empty := fun _ => otherNone

/-- Releasing an address leaves a heap that offers as much. -/
theorem release (heap : Heap platform) (addr : Nat) : heap.OffersTo (heap.release addr) := by
  by_cases has : heap.Has addr
  · obtain ⟨region, member, rfl⟩ := has
    obtain ⟨front, back, split⟩ := List.append_of_mem member
    have rest := heap.release_regions split
    obtain ⟨lower, upper, whole, joined⟩ := @rooms_remove Region Region.addr (Region.top platform)
      heap.start heap.stop none front back region
    have gaps : heap.gaps = _ := (congrArg _ split).trans whole
    have otherGaps : (heap.release (region.payload platform)).gaps = _ :=
      (congrArg _ rest).trans joined
    have length := heap.length_join split
    refine ⟨fun room gap => ?_, fun none => ?_⟩
    · rw [gaps, List.mem_append, List.mem_cons, List.mem_cons] at gap
      rw [otherGaps]
      rcases gap with inLower | rfl | rfl | inUpper
      · exact ⟨room, List.mem_append_left _ inLower, le_rfl⟩
      · exact ⟨_, List.mem_append_right _ List.mem_cons_self, by dsimp only; omega⟩
      · exact ⟨_, List.mem_append_right _ List.mem_cons_self, by dsimp only; omega⟩
      · exact ⟨room, List.mem_append_right _ (List.mem_cons_of_mem _ inUpper), le_rfl⟩
    · rw [none] at member
      cases member
  · rw [heap.release_of_notMem fun region member same => has ⟨region, member, same⟩]
    exact refl heap

theorem admits {heap other : Heap platform} (offers : heap.OffersTo other) {bytes fewer : Nat}
    (le : fewer ≤ bytes) {room : Room Region} (admits : heap.Admits bytes room) :
    ∃ wider, other.Admits fewer wider := by
  obtain ⟨gap, longer | ⟨none, enough⟩⟩ := admits
  · obtain ⟨wider, widerGap, further⟩ := offers.longer room gap
    exact ⟨wider, widerGap, Or.inl (by omega)⟩
  · obtain ⟨wider, widerGap, further⟩ := offers.longer room gap
    exact ⟨wider, widerGap, Or.inr ⟨offers.empty none, by omega⟩⟩

end Heap.OffersTo

/-! ### Frees of a run -/

/-- Frees of a task lead to a heap that offers as much. -/
theorem offersTo_of_frees {task : TaskState platform} (models : kernel.Models task)
    {after : Kernel} {events : List Event} (run : Run (LegalStep platform) kernel events after)
    (frees : ∀ event ∈ events, ∃ addr, event.call = .free addr) :
    ∃ next : TaskState platform, after.Models next ∧
      ∀ {environment other : Environment} (grants : environment.Grants platform)
        (otherGrants : other.Grants platform),
        (task.heapFor grants).OffersTo (next.heapFor otherGrants) := by
  induction run generalizing task with
  | nil kernel =>
    refine ⟨task, models, fun grants otherGrants => ?_⟩
    obtain ⟨strategy, _ | heap⟩ := task
    · exact .of_empty rfl rfl
    · exact .refl heap
  | cons step _ inductionHypothesis =>
    obtain ⟨addr, same⟩ := frees _ List.mem_cons_self
    obtain ⟨middle, taskStep, refined, _⟩ := step_refines models step
    obtain ⟨next, nextModels, offers⟩ := inductionHypothesis refined
      fun event member => frees event (List.mem_cons_of_mem _ member)
    refine ⟨next, nextModels, fun grants otherGrants => ?_⟩
    have onward := offers otherGrants otherGrants
    cases taskStep with
    | alloc => cases same
    | free strategy heap addr => exact (Heap.OffersTo.release heap addr).trans onward
    | switchStrategy => cases same

/-- From every state that a run of legal calls reaches, frees, a smaller size and any of the
three strategies do not turn a request that would be met into one that is refused. -/
theorem serves_of_frees_of_run {start after last : Kernel} {events frees : List Event}
    (fresh : start.Fresh) (run : Run (LegalStep platform) start events after)
    (later : Run (LegalStep platform) after frees last)
    (onlyFrees : ∀ event ∈ frees, ∃ addr, event.call = .free addr)
    (strategy other : AllocationStrategy) {environment otherEnvironment : Environment}
    (grants : environment.Grants platform) (otherGrants : otherEnvironment.Grants platform)
    {size smaller : Nat} (fits : platform.headerSize + size < platform.modulus)
    (le : smaller ≤ size)
    (served : (sysTsoMmSwitchStrategy strategy.value after).kernel.Serves platform environment
      size) :
    (sysTsoMmSwitchStrategy other.value last).kernel.Serves platform otherEnvironment smaller := by
  obtain ⟨task, models⟩ := models_of_run fresh run
  obtain ⟨next, nextModels, offers⟩ := offersTo_of_frees models later onlyFrees
  have before : (sysTsoMmSwitchStrategy strategy.value after).kernel.Models
      (⟨strategy, task.heap⟩ : TaskState platform) := ⟨rfl, models.2.congr rfl rfl⟩
  have behind : (sysTsoMmSwitchStrategy other.value last).kernel.Models
      (⟨other, next.heap⟩ : TaskState platform) := ⟨rfl, nextModels.2.congr rfl rfl⟩
  obtain ⟨room, admits⟩ := (before.serves_iff grants fits).mp served
  exact (behind.serves_iff otherGrants (by omega)).mpr
    ((offers grants otherGrants).admits (by omega) admits)

theorem serves_of_frees_sample : ∃ after last,
    Run (LegalStep Platform.i386) (Kernel.boot fun _ => 0)
        [⟨.alloc .secondPage 8, 0, some 0x1008⟩] after ∧
      Run (LegalStep Platform.i386) after [⟨.free 0x1008, 0, none⟩] last ∧
        (sysTsoMmSwitchStrategy AllocationStrategy.worstFit.value last).kernel.Serves
          Platform.i386 .secondPage 32743 := by
  obtain ⟨both, last, run, rfl⟩ := exists_run Platform.i386 9 (Kernel.boot fun _ => 0)
    [.alloc .secondPage 8, .free 0x1008] (fun state => state.1)
    (show _ = some [⟨.alloc .secondPage 8, 0, some 0x1008⟩, ⟨.free 0x1008, 0, none⟩]
      by decide +kernel)
  obtain ⟨one, found, foundRun, seen⟩ := exists_run Platform.i386 9 (Kernel.boot fun _ => 0)
    [.alloc .secondPage 8]
    (fun state => (state.1, (sysTsoMmAlloc Platform.i386 9 .secondPage 32743
      (sysTsoMmSwitchStrategy AllocationStrategy.bestFit.value state.2).kernel).toOption.map
        Outcome.ret))
    (show _ = some ([⟨.alloc .secondPage 8, 0, some 0x1008⟩], some 0) by decide +kernel)
  obtain ⟨rfl, served⟩ := Prod.mk.inj seen
  obtain ⟨after, first, later⟩ := run_cons.mp run
  have firstRun := run_singleton.mpr first
  obtain rfl := firstRun.unique foundRun fun _ _ _ _ => legalStep_unique
  obtain ⟨outcome, returned, zero⟩ := exists_outcome Platform.i386 9 _
    (.alloc .secondPage 32743) Outcome.ret served
  have grants : Environment.secondPage.Grants Platform.i386 := by decide
  have frees : ∀ event ∈ [(⟨.free 0x1008, 0, none⟩ : Event)], ∃ addr, event.call = .free addr :=
    fun event member => ⟨0x1008, by rw [List.mem_singleton.mp member]⟩
  exact ⟨after, last, firstRun, later, serves_of_frees_of_run (Kernel.fresh_boot _) firstRun later
    frees .bestFit .worstFit grants grants (by decide) le_rfl ⟨9, outcome, returned, zero⟩⟩

end TsoAlloc
