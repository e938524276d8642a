/-
This file says what the callers of a system of many tasks can see of disjointness, without
a look at any list. An address that is delivered stands for a block with its header. Until
the task that got it frees it, no allocation of any task in the address space is delivered
a block that overlaps it, by as little as a byte of the two headers, and also when one of
the two blocks is empty.
-/

import TsoAlloc.Integrity

namespace TsoAlloc

open Transition

variable {platform : Platform} {machine next : Machine} {heaps : Nat → Option (Heap platform)}

/-! ### Delivered blocks -/

/-- A block that is delivered is a region that the heap did not have before. -/
theorem TaskState.Step.delivered {task after : TaskState platform} {environment : Environment}
    {size address : Nat} {ret : Int}
    (step : task.Step ⟨.alloc environment size, ⟨ret, some address⟩⟩ after) :
    ∃ heap region, after.heap = some heap ∧ heap.regions.Perm (region :: task.regions) ∧
      region.payload platform = address ∧ region.size = size := by
  generalize made : (⟨.alloc environment size, ⟨ret, some address⟩⟩ : Event) = event at step
  cases step with
  | alloc strategy before _ _ grants =>
    obtain ⟨call, answer⟩ := Event.mk.inj made
    obtain ⟨rfl, rfl⟩ := Call.alloc.inj call
    rw [← TaskState.regions_getD strategy before grants]
    cases chosen : (before.getD grants.heap).choose strategy (platform.headerSize + size) with
    | none =>
      rw [Heap.alloc_of_none chosen] at answer
      cases answer
    | some room =>
      rw [Heap.alloc_of_some chosen] at answer
      obtain ⟨_, address⟩ := Answer.mk.inj answer
      refine ⟨_, ⟨room.base, size⟩, rfl, ?_, ?_, rfl⟩
      · rw [Heap.alloc_of_some chosen]
        exact insertRegion_perm _ _
      · split at address
        · exact (Option.some.inj address).symm
        · cases address
  | free => cases made
  | switchStrategy => cases made

/-- Blocks with their headers overlap. -/
def Overlap (platform : Platform) (address size otherAddress otherSize : Nat) : Prop :=
  address < otherAddress + otherSize + platform.headerSize ∧
    otherAddress < address + size + platform.headerSize

instance (address size otherAddress otherSize : Nat) :
    Decidable (Overlap platform address size otherAddress otherSize) :=
  inferInstanceAs (Decidable (_ ∧ _))

/-- Regions that share no byte hold blocks that do not overlap. -/
theorem Region.not_overlap {region other : Region}
    (apart : region.top platform ≤ other.addr ∨ other.top platform ≤ region.addr) :
    ¬ Overlap platform (region.payload platform) region.size (other.payload platform)
      other.size := by
  unfold Overlap Region.payload
  unfold Region.top at apart
  omega

namespace Machine

/-- The task that is delivered a block has its region from then on. -/
theorem Owns.hasRegion (owns : machine.Owns heaps) {pid object size address : Nat}
    {environment : Environment} {ret : Int} {task : Task}
    (here : machine.tasks pid = some task)
    (step : machine.Step platform
      (.call pid object ⟨.alloc environment size, ⟨ret, some address⟩⟩) next) :
    ∃ region : Region, region.payload platform = address ∧ region.size = size ∧
      ∃ nextHeaps : Nat → Option (Heap platform),
        next.HasRegion nextHeaps pid task.mm region := by
  obtain ⟨caller, strategy, after, effect⟩ := owns.callEffect step
  obtain rfl := Option.some.inj (here.symm.trans effect.runs.1)
  obtain ⟨heap, region, left, placed, payload, same⟩ := effect.step.delivered
  obtain ⟨later, laterRuns, mm⟩ := step.runs_mm effect.runs
  exact ⟨region, payload, same, _, effect.owns, later, heap, laterRuns, mm,
    (Function.update_self _ _ _).trans left, placed.mem_iff.mpr List.mem_cons_self⟩

/-- A block that is delivered overlaps no region that is live in the address space. -/
theorem HasRegion.not_overlap {pid : Nat} {region : Region} {other object size address : Nat}
    {environment : Environment} {ret : Int} {task : Task}
    (here : machine.tasks other = some task) (has : machine.HasRegion heaps pid task.mm region)
    (step : machine.Step platform
      (.call other object ⟨.alloc environment size, ⟨ret, some address⟩⟩) next) :
    ¬ Overlap platform (region.payload platform) region.size address size := by
  obtain ⟨owns, owner, heap, runs, shared, found, member⟩ := has
  obtain ⟨caller, strategy, after, effect⟩ := owns.callEffect step
  obtain rfl := Option.some.inj (here.symm.trans effect.runs.1)
  obtain ⟨left, placed, leaves, perm, rfl, rfl⟩ := effect.step.delivered
  have placedMember : placed ∈ left.regions := perm.mem_iff.mpr List.mem_cons_self
  by_cases own : pid = other
  · subst own
    have live : region ∈ (⟨strategy, heaps pid⟩ : TaskState platform).regions := by
      unfold TaskState.regions
      rw [found]
      exact member
    -- No region is in the list twice, so the one that was placed is another.
    have distinct := left.toLayout.nodup_addr.of_map
    rw [perm.nodup_iff, List.nodup_cons] at distinct
    have different : region ≠ placed := fun same => distinct.1 (same ▸ live)
    have kept : region ∈ left.regions := perm.mem_iff.mpr (List.mem_cons_of_mem _ live)
    exact Region.not_overlap (left.apart kept placedMember different)
  · refine Region.not_overlap ?_
    obtain ⟨low, high⟩ := heap.within member
    obtain ⟨placedLow, placedHigh⟩ := left.within placedMember
    rcases effect.apart owns leaves runs own shared found with before | behind
    · exact Or.inr (by omega)
    · exact Or.inl (by omega)

end Machine

/-! ### Runs -/

/-- In a run in which tasks fork, make calls and write memory, though not over headers of live
regions: when a task is delivered a block that overlaps a block delivered before, in the same
address space, to the same task or to another one, then the owner of the earlier block has freed it
in between. -/
theorem freed_between_of_run {start allocated later last : Machine}
    {before between : List SystemEvent} (booted : start.Booted)
    (run : Run (Machine.SystemStep platform) start before machine)
    {pid object size address : Nat} {environment : Environment} {ret : Int} {task : Task}
    (here : machine.tasks pid = some task)
    (step : machine.Step platform
      (.call pid object ⟨.alloc environment size, ⟨ret, some address⟩⟩) allocated)
    (onward : Run (Machine.SystemStep platform) allocated between later)
    {other otherObject otherSize otherAddress : Nat} {otherEnvironment : Environment}
    {otherRet : Int} {otherTask : Task} (there : later.tasks other = some otherTask)
    (again : later.Step platform (.call other otherObject
      ⟨.alloc otherEnvironment otherSize, ⟨otherRet, some otherAddress⟩⟩) last)
    (shared : otherTask.mm = task.mm)
    (overlap : Overlap platform address size otherAddress otherSize) :
    ∃ freeObject answer, .step (.call pid freeObject ⟨.free address, answer⟩) ∈ between := by
  by_contra unfreed
  push Not at unfreed
  obtain ⟨heaps, owns⟩ := booted.owns_of_systemRun run
  obtain ⟨region, rfl, rfl, initially⟩ := owns.hasRegion here step
  have live := onward.along (fun state => ∃ heaps : Nat → Option (Heap platform),
    state.HasRegion heaps pid task.mm region) initially
    fun front event back _ _ split _ taken _ ⟨_, has⟩ =>
      (has.systemStep taken fun freeObject answer same => unfreed freeObject answer (by
        rw [split, same]
        exact List.mem_append_right _ List.mem_cons_self)).1
  obtain ⟨laterHeaps, has⟩ := live
  rw [← shared] at has
  exact has.not_overlap there again overlap

/-- A block is replaced by a smaller one that begins at the same address. -/
theorem freed_between_sample : ∃ allocated later last,
    Machine.boot.Step Platform.i386 (.call 0 7 ⟨.alloc .secondPage 40, ⟨0, some 0x1008⟩⟩)
        allocated ∧
      Run (Machine.SystemStep Platform.i386) allocated
          [.step (.call 0 7 ⟨.free 0x1008, ⟨0, none⟩⟩)] later ∧
        later.Step Platform.i386 (.call 0 7 ⟨.alloc .secondPage 20, ⟨0, some 0x1008⟩⟩) last ∧
          ∃ freeObject answer, .step (.call 0 freeObject ⟨.free 0x1008, answer⟩) ∈
            [SystemEvent.step (.call 0 7 ⟨.free 0x1008, ⟨0, none⟩⟩)] := by
  obtain ⟨last, run⟩ := Machine.exists_run Platform.i386 9 Machine.boot
    [(0, 7, .alloc .secondPage 40), (0, 7, .free 0x1008), (0, 7, .alloc .secondPage 20)]
    (show _ = some [.call 0 7 ⟨.alloc .secondPage 40, ⟨0, some 0x1008⟩⟩,
      .call 0 7 ⟨.free 0x1008, ⟨0, none⟩⟩, .call 0 7 ⟨.alloc .secondPage 20, ⟨0, some 0x1008⟩⟩]
      by decide +kernel)
  obtain ⟨allocated, step, rest⟩ := run_cons.mp run
  obtain ⟨later, freed, final⟩ := run_cons.mp rest
  have again := run_singleton.mp final
  have here : Machine.boot.tasks 0 = some Task.initTask := rfl
  have allocatedRuns : Machine.boot.Runs 0 Task.initTask := ⟨here, trivial⟩
  obtain ⟨middleTask, middleRuns, middleMm⟩ := step.runs_mm allocatedRuns
  obtain ⟨laterTask, laterRuns, laterMm⟩ := freed.runs_mm middleRuns
  have onward := run_steps (run_singleton.mpr freed)
  exact ⟨allocated, later, last, step, onward, again,
    freed_between_of_run Machine.booted_boot (Run.nil _) here step onward laterRuns.1 again
      (laterMm.trans middleMm) (by decide)⟩

end TsoAlloc
