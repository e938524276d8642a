/-
This file settles when a request that some gap has room for is met. The counter and the
path for an empty list accept a request that takes every byte; the scan does not: it asks
for a gap strictly longer than `region_size`. So a request is refused although a gap has
room for it exactly when there are regions and the longest gap has just the bytes it needs,
as when the block that was freed last is to be replaced, or the last bytes are to be used.
-/

import TsoAlloc.StrategyPlacement

namespace TsoAlloc

open Extents Transition

section

variable (platform : Platform)

/-- Some gap of the mapping has room for the header and the payload. -/
def Kernel.HasRoom (kernel : Kernel) (environment : Environment) (size : Nat) : Prop :=
  ∃ mm front back, kernel.Uses platform environment mm ∧
    Listed platform kernel.memory mm.firstRegion (front ++ back) ∧
      platform.headerSize + size ≤ gapLength platform mm front back

/-- There are regions, and the longest of the gaps is just as long as the header and the
payload. -/
def Kernel.FitsOnlyExactly (kernel : Kernel) (size : Nat) : Prop :=
  ∃ mm regions, kernel.currentMm = some mm ∧
    Listed platform kernel.memory mm.firstRegion regions ∧ regions ≠ [] ∧
      (∃ front back, regions = front ++ back ∧
        gapLength platform mm front back = platform.headerSize + size) ∧
        ∀ front back, regions = front ++ back →
          gapLength platform mm front back ≤ platform.headerSize + size

end

variable {platform : Platform} {kernel : Kernel}

/-- In a state that models a task, there is room for a request when a gap of the heap is long
enough. -/
theorem Kernel.Models.hasRoom_iff {task : TaskState platform} (models : kernel.Models task)
    {environment : Environment} (grants : environment.Grants platform) {size : Nat} :
    kernel.HasRoom platform environment size ↔
      ∃ room ∈ (task.heapFor grants).gaps, platform.headerSize + size ≤ room.length := by
  obtain ⟨mm, uses, represents⟩ := models.uses grants
  rw [← represents.toDescribes.exists_gapLength fun length => platform.headerSize + size ≤ length]
  constructor
  · rintro ⟨other, front, back, otherUses, listed, enough⟩
    obtain rfl := uses.unique otherUses
    exact ⟨front, back, represents.listed.unique listed, enough⟩
  · rintro ⟨front, back, split, enough⟩
    exact ⟨mm, front, back, uses, split ▸ represents.listed, enough⟩

/-- In a state that models a task, the longest gap is just long enough when that is so of the
heap. -/
theorem Kernel.Models.fitsOnlyExactly_iff {task : TaskState platform} (models : kernel.Models task)
    {environment : Environment} (grants : environment.Grants platform) {size : Nat} :
    kernel.FitsOnlyExactly platform size ↔ (task.heapFor grants).regions ≠ [] ∧
      (∃ room ∈ (task.heapFor grants).gaps, room.length = platform.headerSize + size) ∧
        ∀ room ∈ (task.heapFor grants).gaps, room.length ≤ platform.headerSize + size := by
  obtain ⟨mm, uses, represents⟩ := models.uses grants
  have exactly := represents.toDescribes.exists_gapLength
    fun length => length = platform.headerSize + size
  have longer := represents.toDescribes.exists_gapLength
    fun length => ¬ length ≤ platform.headerSize + size
  have longest : (∀ front back, (task.heapFor grants).regions = front ++ back →
      gapLength platform mm front back ≤ platform.headerSize + size) ↔
        ∀ room ∈ (task.heapFor grants).gaps, room.length ≤ platform.headerSize + size := by
    rw [← not_iff_not]
    push Not at longer ⊢
    exact longer
  constructor
  · rintro ⟨other, regions, mapped, listed, nonempty, found, bound⟩
    obtain rfl := uses.unique (Or.inl mapped)
    obtain rfl := represents.listed.unique listed
    exact ⟨nonempty, exactly.mp found, longest.mp bound⟩
  · rintro ⟨nonempty, found, bound⟩
    have headed : mm.firstRegion ≠ 0 :=
      fun null => nonempty (represents.listed.first_eq_zero.mp null)
    exact ⟨mm, _, uses.mapped headed, represents.listed, nonempty, exactly.mpr found,
      longest.mpr bound⟩

/-- In a state that models a task, a request that there is room for is met unless the longest gap is
just long enough. -/
theorem Kernel.Models.serves_of_hasRoom_iff {task : TaskState platform}
    (models : kernel.Models task) {environment : Environment}
    (grants : environment.Grants platform) {size : Nat}
    (fits : platform.headerSize + size < platform.modulus) :
    (kernel.HasRoom platform environment size → kernel.Serves platform environment size) ↔
      ¬ kernel.FitsOnlyExactly platform size := by
  rw [models.hasRoom_iff grants, models.serves_iff grants fits, models.fitsOnlyExactly_iff grants]
  constructor
  · rintro served ⟨nonempty, ⟨room, gap, length⟩, longest⟩
    obtain ⟨found, foundGap, longer | ⟨empty, _⟩⟩ := served ⟨room, gap, length.ge⟩
    · have := longest found foundGap
      omega
    · exact nonempty empty
  · rintro inexact ⟨room, gap, enough⟩
    by_cases empty : (task.heapFor grants).regions = []
    · exact ⟨room, gap, Or.inr ⟨empty, enough⟩⟩
    by_contra refused
    have longest : ∀ other ∈ (task.heapFor grants).gaps,
        other.length ≤ platform.headerSize + size := by
      intro other otherGap
      by_contra longer
      exact refused ⟨other, otherGap, Or.inl (by omega)⟩
    exact inexact ⟨empty, ⟨room, gap, le_antisymm (longest room gap) enough⟩, longest⟩

/-- In every state that a run of legal calls reaches, a request that does not wrap is met when some
gap has room for it, if and only if it is not so that there are regions and the longest gap is just
long enough. -/
theorem serves_of_hasRoom_iff_of_run {start after : Kernel} {events : List Event}
    (fresh : start.Fresh) (run : Run (LegalStep platform) start events after)
    {environment : Environment} (grants : environment.Grants platform) {size : Nat}
    (fits : platform.headerSize + size < platform.modulus) :
    (after.HasRoom platform environment size → after.Serves platform environment size) ↔
      ¬ after.FitsOnlyExactly platform size := by
  obtain ⟨task, models⟩ := models_of_run fresh run
  exact models.serves_of_hasRoom_iff grants fits

theorem serves_of_hasRoom_sample : ∃ after,
    Run (LegalStep Platform.i386) (Kernel.boot fun _ => 0)
        [⟨.alloc .secondPage 8, 0, some 0x1008⟩] after ∧
      (after.HasRoom Platform.i386 .secondPage 32743 →
        after.Serves Platform.i386 .secondPage 32743) := by
  obtain ⟨after, run, mapped, listed⟩ := exists_run_firstBlock
  have grants : Environment.secondPage.Grants Platform.i386 := by decide
  have fits : Platform.i386.headerSize + 32743 < Platform.i386.modulus := by decide
  refine ⟨after, run, (serves_of_hasRoom_iff_of_run (Kernel.fresh_boot _) run grants fits).mpr ?_⟩
  rintro ⟨mm, regions, otherMapped, otherListed, _, _, longest⟩
  obtain rfl := Option.some.inj (mapped.symm.trans otherMapped)
  obtain rfl := listed.unique otherListed
  have bound := longest [⟨0x1000, 8⟩] [] rfl
  revert bound
  decide

/-- With one small block at the start, the bytes behind it cannot all be had. -/
theorem not_serves_rest : ¬ ∀ (start after : Kernel) (events : List Event), start.Fresh →
    Run (LegalStep Platform.i386) start events after → ∀ size,
      Platform.i386.headerSize + size < Platform.i386.modulus →
        after.HasRoom Platform.i386 .secondPage size →
          after.Serves Platform.i386 .secondPage size := by
  intro always
  obtain ⟨after, run, mapped, listed⟩ := exists_run_firstBlock
  have fits : Platform.i386.headerSize + 32744 < Platform.i386.modulus := by decide
  obtain ⟨task, models⟩ := models_of_run (Kernel.fresh_boot _) run
  refine (models.serves_of_hasRoom_iff (by decide) fits).mp
    (always _ after _ (Kernel.fresh_boot _) run 32744 fits) ?_
  refine ⟨_, _, mapped, listed, by decide, ⟨[⟨0x1000, 8⟩], [], rfl, by decide⟩, ?_⟩
  intro front back split
  rcases List.append_eq_singleton_iff.mp split.symm with ⟨rfl, rfl⟩ | ⟨rfl, rfl⟩ <;> decide

end TsoAlloc
