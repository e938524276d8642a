/-
This file treats requests of any size, up to the largest `size_t`. For the sizes at the
very top `region_size` wraps to a few bytes, and nothing in `sys_tso_mm_alloc` notices:
the request passes the test of the counter and is measured against the gaps with the
wrapped size. It is granted unless there are regions and every gap is shorter than those
few bytes. So an allocation owes its caller what it does exactly when the request does
not wrap, or does wrap and finds no gap.
-/

import TsoAlloc.Placement

namespace TsoAlloc

open Extents Transition

section

variable (platform : Platform)

/-- What an allocation owes its caller, in exact integers. It places the region in a gap that has
room for the payload and the header and delivers the address of the payload, or it returns -1
and changes nothing but that the mapping now exists. -/
def GrantsExactly (kernel : Kernel) (environment : Environment) (size : Nat) : Prop :=
  ∃ fuel outcome mm, sysTsoMmAlloc platform fuel environment size kernel = .ok outcome ∧
    kernel.Uses platform environment mm ∧
      ((outcome.ret = 0 ∧ ∃ placed front back, outcome.kernel.currentMm = some placed ∧
          Placed platform size mm placed kernel.memory outcome.kernel.memory front back ∧
            ∀ address, outcome.delivered = some address →
              address = gapBase platform mm front + platform.headerSize) ∨
        (outcome.ret = -1 ∧ outcome.kernel = { kernel with currentMm := some mm }))

/-- The request does not wrap, or there are regions and no gap is longer than the wrapped size. -/
def ExactRequest (kernel : Kernel) (size : Nat) : Prop :=
  platform.headerSize + size < platform.modulus ∨
    ∃ mm, kernel.currentMm = some mm ∧ mm.firstRegion ≠ 0 ∧
      ∀ front back, Listed platform kernel.memory mm.firstRegion (front ++ back) →
        gapLength platform mm front back ≤ regionSize platform size

/-- A call a task may make whose request, of any size, is exact. -/
def Call.Exact (kernel : Kernel) : Call → Prop
  | .alloc environment size =>
    environment.Grants platform ∧ size < platform.modulus ∧ ExactRequest platform kernel size
  | .free _ => kernel.currentMm ≠ none
  | .switchStrategy strategy => ∃ enumerator : AllocationStrategy, strategy = enumerator.value

/-- An exact call that returns. -/
def ExactStep (before : Kernel) (event : Event) (after : Kernel) : Prop :=
  event.call.Exact platform before ∧ Step platform before event after

end

variable {platform : Platform} {kernel : Kernel}

/-! ### The search with a wrapped size -/

theorem regionSize_of_wraps {size : Nat} (word : size < platform.modulus)
    (wraps : platform.modulus ≤ platform.headerSize + size) :
    regionSize platform size < platform.headerSize := by
  have small := platform.initialSize_lt_modulus
  have header := platform.two_headers_lt_initialSize
  have reduced : platform.headerSize + size =
      platform.headerSize + size - platform.modulus + platform.modulus := by omega
  rw [regionSize, Platform.add, reduced, Nat.add_mod_right, Nat.mod_eq_of_lt (by omega)]
  omega

/-- An allocation on a heap settles on the target of the strategy, unless the counter is too low. -/
theorem Represents.alloc_eq {mm : TsoMmMapping} {heap : Heap platform}
    (represents : Represents mm kernel.memory heap) {environment : Environment}
    (uses : kernel.Uses platform environment mm) {strategy : AllocationStrategy}
    (follows : kernel.Follows strategy) (size : Nat) :
    sysTsoMmAlloc platform (heap.regions.length + 1) environment size kernel =
      .ok (settledOutcome platform environment kernel mm size
        (if mm.free < regionSize platform size then none
          else heap.target strategy (regionSize platform size))) := by
  have constant : ∀ _ : Nat, AllocationStrategy.ofValue kernel.currentStrategy = some strategy :=
    fun _ => by rw [follows, ofValue_value]
  unfold sysTsoMmAlloc
  rw [uses.alloc_eq]
  exact allocMapped_eq represents.toDescribes environment (fun room => heap.target_gap)
    (tsoMmGetFit_constant represents.toDescribes constant (Nat.lt_succ_self _))

/-- A gap that the search could settle on is not longer than the counter. -/
theorem Represents.exists_target {mm : TsoMmMapping} {heap : Heap platform}
    (represents : Represents mm kernel.memory heap) (strategy : AllocationStrategy) {bytes : Nat}
    (short : bytes ≤ platform.initialSize)
    (found : heap.regions = [] ∨ ∃ room ∈ heap.gaps, bytes < room.length) :
    ∃ room, (if mm.free < bytes then none else heap.target strategy bytes) = some room := by
  have free := represents.free
  unfold Heap.freeBytes at free
  unfold Layout.target
  rcases found with empty | ⟨room, gap, longer⟩
  · have used : heap.used = 0 := by unfold Layout.used; rw [empty]; rfl
    exact ⟨_, by rw [if_neg (by omega), if_pos empty]⟩
  · have room_le := heap.length_le_of_mem_gaps gap
    rw [if_neg (by omega)]
    split
    · exact ⟨_, rfl⟩
    · refine Option.ne_none_iff_exists'.mp fun nothing => ?_
      exact heap.gapsAbove_ne_nil.mpr ⟨room, gap, longer⟩ (Layout.pick_eq_none.mp nothing)

/-! ### When a request is met exactly -/

/-- A request that does not wrap is met exactly. -/
theorem Kernel.Models.grantsExactly_of_fits {task : TaskState platform}
    (models : kernel.Models task) {environment : Environment}
    (grants : environment.Grants platform) {size : Nat}
    (fits : platform.headerSize + size < platform.modulus) :
    GrantsExactly platform kernel environment size := by
  obtain ⟨mm, uses, represents, returned⟩ := models.alloc grants fits
  refine ⟨_, _, mm, returned _ (Nat.lt_succ_self _), uses, ?_⟩
  cases chosen : (task.heapFor grants).choose task.strategy (platform.headerSize + size) with
  | none => exact Or.inr ⟨rfl, rfl⟩
  | some room =>
    have admits := (task.heapFor grants).admits_of_choose chosen
    obtain ⟨front, back, base, _, placed⟩ := represents.placed admits
    refine Or.inl ⟨rfl, _, front, back, rfl, placed, ?_⟩
    intro address delivered
    rw [base, ← (task.heapFor grants).add_base admits]
    have sent : (if environment.copyToUser = 0 then
        some (platform.add room.base platform.headerSize) else none) = some address := delivered
    split at sent
    · exact (Option.some.inj sent).symm
    · cases sent

/-- A request that wraps and finds no gap is refused, and changes nothing. -/
theorem Kernel.Models.refused_of_no_gap {task : TaskState platform} (models : kernel.Models task)
    (environment : Environment) {size : Nat} {mm : TsoMmMapping}
    (mapped : kernel.currentMm = some mm) (listed : mm.firstRegion ≠ 0)
    (noGap : ∀ front back, Listed platform kernel.memory mm.firstRegion (front ++ back) →
      gapLength platform mm front back ≤ regionSize platform size) :
    ∃ fuel, sysTsoMmAlloc platform fuel environment size kernel =
      .ok (refusedOutcome kernel mm) := by
  obtain ⟨strategy, held⟩ := task
  obtain ⟨heap, rfl, represents⟩ := models.2.heap mapped
  have uses : kernel.Uses platform environment mm := Or.inl mapped
  have nonempty : heap.regions ≠ [] := fun empty =>
    listed (represents.listed.first_eq_zero.mpr empty)
  have short : heap.gapsAbove (regionSize platform size) = [] := by
    by_contra gapped
    obtain ⟨room, gap, longer⟩ := heap.gapsAbove_ne_nil.mp gapped
    obtain ⟨front, back, split, _, _, length⟩ := represents.toDescribes.halves gap
    have bound := noGap front back (split ▸ represents.listed)
    omega
  have nowhere : (if mm.free < regionSize platform size then none
      else heap.target strategy (regionSize platform size)) = none := by
    split
    · rfl
    · rw [Layout.target, if_neg nonempty, short]
      exact Layout.pick_eq_none.mpr rfl
  refine ⟨_, (represents.alloc_eq uses models.1 size).trans ?_⟩
  rw [nowhere]
  rfl

/-- A request that wraps and finds a gap is granted. -/
theorem Kernel.Models.granted_of_gap {task : TaskState platform} (models : kernel.Models task)
    {environment : Environment} (grants : environment.Grants platform) {size : Nat}
    (word : size < platform.modulus) (inexact : ¬ ExactRequest platform kernel size) :
    ∃ fuel mm room, kernel.Uses platform environment mm ∧
      sysTsoMmAlloc platform fuel environment size kernel =
        .ok (placedOutcome platform environment kernel mm size room) := by
  obtain ⟨mm, uses, represents⟩ := models.2.uses grants
  unfold ExactRequest at inexact
  push Not at inexact
  obtain ⟨wraps, gapped⟩ := inexact
  have bytes := regionSize_of_wraps word wraps
  have header := platform.two_headers_lt_initialSize
  have found : (task.heap.getD grants.heap).regions = [] ∨
      ∃ room ∈ (task.heap.getD grants.heap).gaps, regionSize platform size < room.length := by
    rcases uses with mapped | ⟨unmapped, _⟩
    · by_cases empty : mm.firstRegion = 0
      · exact Or.inl (represents.listed.first_eq_zero.mp empty)
      · obtain ⟨front, back, listed, longer⟩ := gapped mm mapped empty
        exact Or.inr ⟨_, (represents.toDescribes.gap listed).2, longer⟩
    · left
      obtain ⟨strategy, _ | heap⟩ := task
      · rfl
      · obtain ⟨other, otherMapped, _⟩ := models.2
        rw [unmapped] at otherMapped
        cases otherMapped
  obtain ⟨room, target⟩ := represents.exists_target task.strategy (by omega) found
  refine ⟨_, mm, room, uses, (represents.alloc_eq uses models.1 size).trans ?_⟩
  rw [target]
  rfl

/-- In a state that models a task, a request is met exactly when it does not wrap or finds no
gap. -/
theorem Kernel.Models.grantsExactly_iff {task : TaskState platform} (models : kernel.Models task)
    {environment : Environment} (grants : environment.Grants platform) {size : Nat}
    (word : size < platform.modulus) :
    GrantsExactly platform kernel environment size ↔ ExactRequest platform kernel size := by
  constructor
  · intro exactly
    by_contra inexact
    obtain ⟨fuel, outcome, mm, returned, uses, answer⟩ := exactly
    obtain ⟨enough, other, room, otherUses, granted⟩ := models.granted_of_gap grants word inexact
    obtain rfl := uses.unique otherUses
    have called : invoke platform fuel kernel (.alloc environment size) = .ok outcome := returned
    have same : outcome = placedOutcome platform environment kernel mm size room :=
      invoke_unique called granted
    rcases answer with ⟨_, placed, front, back, _, placement, _⟩ | ⟨refused, _⟩
    · refine inexact (Or.inl ?_)
      obtain ⟨used, usedUses, represents⟩ := models.2.uses grants
      obtain rfl := uses.unique usedUses
      have short := Layout.length_le_of_mem_gaps _
        (represents.toDescribes.gap placement.before).2
      have enough := placement.fits
      have small := platform.initialSize_lt_modulus
      dsimp only at short
      omega
    · rw [same] at refused
      cases refused
  · rintro (fits | ⟨mm, mapped, listed, noGap⟩)
    · exact models.grantsExactly_of_fits grants fits
    · obtain ⟨fuel, returned⟩ := models.refused_of_no_gap environment mapped listed noGap
      exact ⟨fuel, _, mm, returned, Or.inl mapped, Or.inr ⟨rfl, rfl⟩⟩

/-! ### Runs of exact requests -/

/-- An exact call keeps a state that models a task. -/
theorem models_of_exactStep {task : TaskState platform} (models : kernel.Models task)
    {event : Event} {after : Kernel} (step : ExactStep platform kernel event after) :
    ∃ next : TaskState platform, after.Models next := by
  obtain ⟨exactly, returns⟩ := step
  have refined (legal : event.call.Legal platform kernel) :
      ∃ next : TaskState platform, after.Models next := by
    obtain ⟨next, _, refined, _⟩ := step_refines models ⟨legal, returns⟩
    exact ⟨next, refined⟩
  obtain ⟨call, answer⟩ := event
  cases call with
  | alloc environment size =>
    obtain ⟨grants, word, fits | ⟨mm, mapped, listed, noGap⟩⟩ := exactly
    · exact refined ⟨grants, fits⟩
    · obtain ⟨enough, refused⟩ := models.refused_of_no_gap environment mapped listed noGap
      obtain ⟨fuel, outcome, returned, _, rfl⟩ := returns
      have same : outcome = refusedOutcome kernel mm := invoke_unique returned refused
      refine ⟨task, ?_⟩
      rw [same, refusedOutcome, ← mapped]
      exact models
  | free addr => exact refined exactly
  | switchStrategy strategy => exact refined exactly

theorem exactStep_of_legalStep {event : Event} {after : Kernel}
    (step : LegalStep platform kernel event after) : ExactStep platform kernel event after := by
  obtain ⟨legal, returns⟩ := step
  refine ⟨?_, returns⟩
  obtain ⟨call, answer⟩ := event
  cases call with
  | alloc environment size =>
    obtain ⟨grants, fits⟩ := legal
    exact ⟨grants, lt_of_le_of_lt (Nat.le_add_left _ _) fits, Or.inl fits⟩
  | free addr => exact legal
  | switchStrategy strategy => exact legal

/-- In every state that a run of exact calls reaches, a request of any size is met exactly if and
only if it does not wrap, or there are regions and no gap is longer than the wrapped size. -/
theorem grantsExactly_iff_of_run {start after : Kernel} {events : List Event}
    (fresh : start.Fresh) (run : Run (ExactStep platform) start events after)
    {environment : Environment} (grants : environment.Grants platform) {size : Nat}
    (word : size < platform.modulus) :
    GrantsExactly platform after environment size ↔ ExactRequest platform after size := by
  obtain ⟨strategy, models⟩ := fresh.models platform
  have kept : ∀ before event after, (∃ task : TaskState platform, before.Models task) →
      ExactStep platform before event after → ∃ task : TaskState platform, after.Models task :=
    fun _ _ _ ⟨_, models⟩ step => models_of_exactStep models step
  obtain ⟨task, reached⟩ := run.invariant ⟨_, models⟩ kept
  exact reached.grantsExactly_iff grants word

theorem grantsExactly_sample : ∃ events after,
    Run (ExactStep Platform.i386) (Kernel.boot fun _ => 0) events after ∧
      after.currentMm = some ⟨0x1030, 0x1000, 32768, 32700⟩ ∧
        GrantsExactly Platform.i386 after .secondPage 100 := by
  obtain ⟨events, after, run, mapped⟩ := exists_run Platform.i386 9 (Kernel.boot fun _ => 0)
    [.alloc .secondPage 40, .alloc .secondPage 60, .free 0x1008] (fun state => state.2.currentMm)
    (show _ = some (some ⟨0x1030, 0x1000, 32768, 32700⟩) by decide +kernel)
  have exactRun := run.mono fun _ _ _ => exactStep_of_legalStep
  exact ⟨events, after, exactRun, mapped, (grantsExactly_iff_of_run (Kernel.fresh_boot _) exactRun
    (by decide) (by decide)).mpr (Or.inl (by decide))⟩

/-- The first request of a task, for `2 ^ 32 - 8` bytes, is granted with no byte of payload. -/
theorem not_grantsExactly_top : ¬ ∀ (start after : Kernel) (events : List Event), start.Fresh →
    Run (ExactStep Platform.i386) start events after → ∀ size < Platform.i386.modulus,
      GrantsExactly Platform.i386 after .secondPage size := by
  intro always
  have fresh := Kernel.fresh_boot fun _ => 0
  obtain ⟨strategy, models⟩ := fresh.models Platform.i386
  have exactly := always _ _ [] fresh (Run.nil _) (2 ^ 32 - 8) (by decide)
  rcases (models.grantsExactly_iff (by decide) (by decide)).mp exactly with fits | ⟨mm, mapped, _⟩
  · revert fits
    decide
  · cases mapped

end TsoAlloc
