/-
This file finds out what the test of `free` at the beginning of `sys_tso_mm_alloc` is for.
While there are regions it is for nothing but speed: the counter is exact, so that whatever
it refuses the search would refuse too, for requests of any size and under any strategy.
Without regions it is the only test there is: the search returns the start of the mapping
for every size.
-/

import TsoAlloc.Wrapping

namespace TsoAlloc

open Extents Transition

section

variable (platform : Platform)

/-- `sys_tso_mm_alloc` once `current->tso_mm` is set, without the test of `free`. -/
def allocUntested (fuel : Nat) (observed : Nat → BitVec 32) (environment : Environment)
    (size : Nat) (kernel : Kernel) (mm : TsoMmMapping) : Except Trap Outcome :=
  let kernel := { kernel with currentMm := some mm }
  let refused : Outcome := { kernel, ret := -1, delivered := none, stores := [] }
  do
    let (fit, state) ← tsoMmGetFit platform fuel observed mm kernel.memory size .noFit
    match state with
    | .ok => do
      let fitSize ← readSize platform kernel.memory fit
      placeRegion platform environment kernel mm size fit state
        (platform.add fit (regionSize platform fitSize))
    | .start => placeRegion platform environment kernel mm size fit state mm.start
    | .noFit => .ok refused

/-- The test of `free` changes nothing: with it and without it the call returns the same and leaves
the same behind. -/
def TestsInVain (kernel : Kernel) (environment : Environment) (size : Nat) : Prop :=
  ∃ fuel mm outcome, kernel.Uses platform environment mm ∧
    sysTsoMmAlloc platform fuel environment size kernel = .ok outcome ∧
      allocUntested platform fuel (fun _ => kernel.currentStrategy) environment size kernel mm =
        .ok outcome

end

variable {platform : Platform} {kernel : Kernel} {mm : TsoMmMapping}

/-- The call is the test and what comes behind it. -/
theorem allocMapped_eq_untested (fuel : Nat) (observed : Nat → BitVec 32)
    (environment : Environment) (size : Nat) :
    allocMapped platform fuel observed environment size kernel mm =
      if mm.free < regionSize platform size then .ok (refusedOutcome kernel mm)
      else allocUntested platform fuel observed environment size kernel mm := rfl

theorem allocUntested_stable (observed : Nat → BitVec 32) (environment : Environment) (size : Nat)
    (kernel : Kernel) (mm : TsoMmMapping) :
    BoundedLoop.Stable Trap.timeout fun fuel =>
      allocUntested platform fuel observed environment size kernel mm := by
  unfold allocUntested
  exact (tsoMmGetFit_stable observed mm kernel.memory size .noFit).bind fun _ =>
    BoundedLoop.stable_const _

namespace Represents

variable {heap : Heap platform}

/-- While there are regions, the search finds no gap for what the counter refuses. -/
theorem untested_of_regions (represents : Represents mm kernel.memory heap)
    (some : heap.regions ≠ []) {size : Nat} (short : mm.free < regionSize platform size)
    (environment : Environment) {observed : Nat → BitVec 32} {strategy : AllocationStrategy}
    (constant : ∀ read, AllocationStrategy.ofValue (observed read) = .some strategy) :
    allocUntested platform (heap.regions.length + 1) observed environment size kernel mm =
      .ok (refusedOutcome kernel mm) := by
  have searched := @tsoMmGetFit_constant platform kernel mm heap.toLayout represents.toDescribes
    (heap.regions.length + 1) size observed strategy constant (Nat.lt_succ_self _)
  have nothing : heap.gapsAbove (regionSize platform size) = [] := by
    refine List.eq_nil_iff_forall_not_mem.mpr fun room member => ?_
    obtain ⟨gap, longer⟩ := heap.mem_gapsAbove.mp member
    have bound := heap.length_le_of_mem_gaps gap
    have free := represents.free
    unfold Heap.freeBytes at free
    omega
  rw [Layout.target, if_neg some, nothing, Layout.pick_eq_none.mpr rfl] at searched
  unfold allocUntested
  simp only [searched, bind, Except.bind]
  rfl

/-- Without regions, the search returns the start of the mapping for every size. -/
theorem untested_of_empty (represents : Represents mm kernel.memory heap)
    (empty : heap.regions = []) (size : Nat) (environment : Environment)
    {observed : Nat → BitVec 32} {strategy : AllocationStrategy}
    (constant : ∀ read, AllocationStrategy.ofValue (observed read) = .some strategy) :
    allocUntested platform (heap.regions.length + 1) observed environment size kernel mm =
      .ok (placedOutcome platform environment kernel mm size
        ⟨none, heap.start, platform.initialSize⟩) := by
  have searched := @tsoMmGetFit_constant platform kernel mm heap.toLayout represents.toDescribes
    (heap.regions.length + 1) size observed strategy constant (Nat.lt_succ_self _)
  have gap : (⟨none, heap.start, platform.initialSize⟩ : Room Region) ∈ heap.gaps := by
    rw [heap.gaps_of_empty empty]
    exact List.mem_singleton_self _
  have written : placeRegion platform environment { kernel with currentMm := some mm } mm size _ _
      heap.start = .ok (placedOutcome platform environment kernel mm size
        ⟨none, heap.start, platform.initialSize⟩) :=
    placeRegion_eq environment size gap
  rw [Layout.target, if_pos empty] at searched
  unfold allocUntested
  simp only [searched, settleOn, settle, represents.start, bind, Except.bind]
  exact written

end Represents

/-- In a state that models a task, the test of `free` is in vain exactly when there are regions or
the mapping has the bytes. -/
theorem Kernel.Models.testsInVain_iff {task : TaskState platform} (models : kernel.Models task)
    {environment : Environment} (grants : environment.Grants platform)
    (uses : kernel.Uses platform environment mm) (size : Nat) :
    TestsInVain platform kernel environment size ↔
      mm.firstRegion ≠ 0 ∨ regionSize platform size ≤ mm.size := by
  obtain ⟨_, otherUses, represents⟩ := models.uses grants
  obtain rfl := uses.unique otherUses
  have constant : ∀ _ : Nat, AllocationStrategy.ofValue kernel.currentStrategy =
      some task.strategy := fun _ => by rw [models.1, ofValue_value]
  have tested (fuel : Nat) : sysTsoMmAlloc platform fuel environment size kernel =
      if mm.free < regionSize platform size then .ok (refusedOutcome kernel mm)
      else allocUntested platform fuel (fun _ => kernel.currentStrategy) environment size kernel
        mm := (uses.alloc_eq fuel _ size).trans (allocMapped_eq_untested fuel _ environment size)
  have listed := represents.listed
  by_cases short : mm.free < regionSize platform size
  · by_cases empty : (task.heapFor grants).regions = []
    · -- The search goes on where the test would have refused.
      have placed := represents.untested_of_empty empty size environment constant
      have first : mm.firstRegion = 0 := by
        rw [empty] at listed
        exact listed_nil.mp listed
      have free := represents.free_of_empty empty
      refine iff_of_false ?_ ?_
      · rintro ⟨fuel, other, outcome, found, returned, untested⟩
        obtain rfl := uses.unique found
        rw [tested, if_pos short] at returned
        obtain rfl := Except.ok.inj returned
        have same := (allocUntested_stable _ environment size kernel mm).unique untested placed
        have answers := congrArg Outcome.ret same
        cases answers
      · rw [first, represents.size]
        omega
    · have refused := represents.untested_of_regions empty short environment constant
      refine iff_of_true ⟨_, mm, _, uses, (tested _).trans (if_pos short), refused⟩ (Or.inl ?_)
      intro null
      rw [null] at listed
      exact empty (listed.unique (listed_nil.mpr rfl))
  · have returned := represents.alloc_eq uses models.1 size
    have untested := (tested _).symm.trans returned
    rw [if_neg short] at untested
    refine iff_of_true ⟨_, mm, _, uses, returned, untested⟩ (Or.inr ?_)
    have free := represents.free
    have size := represents.size
    unfold Heap.freeBytes at free
    omega

/-- In every state that a run of legal calls reaches, and for a request of any size, the test of
`free` in `sys_tso_mm_alloc` changes nothing if and only if there are regions or the mapping has the
bytes that the test compares. -/
theorem testsInVain_iff_of_run {start after : Kernel} {events : List Event} (fresh : start.Fresh)
    (run : Run (LegalStep platform) start events after) {environment : Environment}
    (grants : environment.Grants platform) (uses : after.Uses platform environment mm)
    (size : Nat) :
    TestsInVain platform after environment size ↔
      mm.firstRegion ≠ 0 ∨ regionSize platform size ≤ mm.size := by
  obtain ⟨task, models⟩ := models_of_run fresh run
  exact models.testsInVain_iff grants uses size

/-- While one block is live, a request for more than the mapping holds is refused with or without
the test. -/
theorem testsInVain_sample : ∃ after,
    Run (LegalStep Platform.i386) (Kernel.boot fun _ => 0)
        [⟨.alloc .secondPage 40, 0, some 0x1008⟩] after ∧
      TestsInVain Platform.i386 after .secondPage 40000 := by
  obtain ⟨events, after, run, seen⟩ := exists_run Platform.i386 9 (Kernel.boot fun _ => 0)
    [.alloc .secondPage 40] (fun state => (state.1, state.2.currentMm))
    (show _ = some ([⟨.alloc .secondPage 40, 0, some 0x1008⟩],
      some ⟨0x1000, 0x1000, 32768, 32720⟩) by decide +kernel)
  obtain ⟨rfl, mapped⟩ := Prod.mk.inj seen
  exact ⟨after, run, (testsInVain_iff_of_run (Kernel.fresh_boot _) run (by decide) (Or.inl mapped)
    40000).mpr (Or.inl (by decide))⟩

end TsoAlloc
