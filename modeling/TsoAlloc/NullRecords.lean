/-
This file settles when a system call reads or writes through `NULL`. `sys_tso_mm_alloc`
sets up a mapping when the task has none, and the search for a gap reports `OK` only with
a region to place behind; the walk of `sys_tso_mm_free` tests a region before it reads
it. But `sys_tso_mm_free` does not test the mapping: its first `printk` reads through
`current->tso_mm`. A task that frees before it allocates, such as a child that frees a
block of its parent, has none.
-/

import TsoAlloc.AnyHeaders
import TsoAlloc.Exclusion

namespace TsoAlloc

open Transition

variable {platform : Platform} {kernel : Kernel}

/-! ### A clean call -/

/-- Arguments that the property speaks about: a request that does not wrap and is served by
`kmalloc` and `vm_mmap`, any address, and one of the three strategies. -/
def Call.Served (platform : Platform) : Call → Prop
  | .alloc environment size =>
    environment.Grants platform ∧ platform.headerSize + size < platform.modulus
  | .free _ => True
  | .switchStrategy strategy => ∃ enumerator : AllocationStrategy, strategy = enumerator.value

/-- A free by a task that has no mapping. -/
def Kernel.FreesNothing (kernel : Kernel) : Call → Prop
  | .alloc _ _ => False
  | .free _ => kernel.currentMm = none
  | .switchStrategy _ => False

/-- A call goes through no `NULL` pointer: it does not trap, however long it runs; a free without a
mapping returns -1 and has no effect; and a search that reports `OK` found a region. -/
structure Kernel.Clean (platform : Platform) (kernel : Kernel) (call : Call) : Prop where
  noTrap : ∀ fuel, invoke platform fuel kernel call ≠ .error .nullDereference
  unmapped : kernel.FreesNothing call → ∃ fuel outcome,
    invoke platform fuel kernel call = .ok outcome ∧ outcome.ret = -1 ∧ outcome.kernel = kernel
  found : ∀ environment size mm fuel fit, call = .alloc environment size →
    kernel.Uses platform environment mm →
      tsoMmGetFit platform fuel (fun _ => kernel.currentStrategy) mm kernel.memory size .noFit =
        .ok (fit, .ok) → fit ≠ 0

/-! ### What the code does -/

theorem free_traps (unmapped : kernel.currentMm = none) (fuel addr : Nat) :
    invoke platform fuel kernel (.free addr) = .error .nullDereference := by
  show sysTsoMmFree platform fuel addr kernel = _
  unfold sysTsoMmFree
  rw [unmapped]

/-- A call is legal if its arguments are and it is not a free without a mapping. -/
theorem Call.Served.legal {call : Call} (served : call.Served platform)
    (mapped : ¬ kernel.FreesNothing call) : call.Legal platform kernel := by
  cases call with
  | alloc environment size => exact served
  | free addr => exact mapped
  | switchStrategy strategy => exact served

/-- In a state that models a task, a call with legal arguments goes through no `NULL` pointer if and
only if it is not a free without a mapping. -/
theorem Kernel.Models.clean_iff {task : TaskState platform} (models : kernel.Models task)
    {call : Call} (served : call.Served platform) :
    kernel.Clean platform call ↔ ¬ kernel.FreesNothing call := by
  constructor
  · intro clean frees
    cases call with
    | alloc environment size => exact frees
    | free addr => exact clean.noTrap 0 (free_traps frees 0 addr)
    | switchStrategy strategy => exact frees
  · intro mapped
    obtain ⟨enough, outcome, _, returned, _⟩ := invoke_refines models (served.legal mapped)
    refine ⟨?_, fun frees => absurd frees mapped, ?_⟩
    · intro fuel trapped
      rcases (invoke_stable kernel call).eq_or_timeout returned fuel with returns | out
      · rw [trapped] at returns
        cases returns
      · rw [trapped] at out
        cases out
    · intro environment size mm fuel fit _ _ found
      exact (tsoMmGetFit_fitting found rfl).1.ne_zero

/-- In every state that a run of forks and calls reaches, a call of a running task goes through no
`NULL` pointer if and only if it is not a free by a task whose `tso_mm` is `NULL`. -/
theorem clean_iff_of_run {start machine : Machine} {events : List MachineEvent}
    (booted : start.Booted) (run : Run (Machine.Step platform) start events machine)
    {pid : Nat} {task : Task} (here : machine.tasks pid = some task)
    (running : task.status = .running) {call : Call} (served : call.Served platform) :
    (machine.view task).Clean platform call ↔ ¬ (task.tsoMm = 0 ∧ ∃ addr, call = .free addr) := by
  obtain ⟨heaps, owns⟩ := owns_of_run booted run
  have runs := machine.runs_of_running here running
  obtain ⟨strategy, models⟩ := owns.models runs
  rw [models.clean_iff served]
  refine not_congr ?_
  cases call with
  | alloc environment size =>
    exact ⟨fun frees => frees.elim, fun ⟨_, _, other⟩ => nomatch other⟩
  | switchStrategy strategy =>
    exact ⟨fun frees => frees.elim, fun ⟨_, _, other⟩ => nomatch other⟩
  | free addr =>
    constructor
    · intro unmapped
      refine ⟨?_, addr, rfl⟩
      by_contra pointer
      have record : machine.objects task.tsoMm = none := (if_neg pointer).symm.trans unmapped
      exact owns.recorded pid task runs pointer record
    · rintro ⟨null, _⟩
      exact if_pos null

theorem clean_sample : ∃ machine task,
    Machine.Step Platform.i386 Machine.boot
        (.call 0 7 ⟨.alloc .secondPage 40, ⟨0, some 0x1008⟩⟩) machine ∧
      machine.tasks 0 = some task ∧ (machine.view task).Clean Platform.i386 (.free 0x1008) := by
  obtain ⟨_, machine, _, _, call, here, _⟩ := exists_fork_after_alloc
  have run : Run (Machine.Step Platform.i386) Machine.boot _ machine := run_singleton.mpr call
  refine ⟨machine, _, call, here, ?_⟩
  have served : (Call.free 0x1008).Served Platform.i386 := trivial
  exact (clean_iff_of_run Machine.booted_boot run here rfl served).mpr
    fun ⟨null, _⟩ => absurd null (by decide)

/-- A child frees the block that its parent allocated before the fork. -/
theorem not_clean_child : ¬ ∀ events machine,
    Run (Machine.Step Platform.i386) Machine.boot events machine →
      ∀ pid task, machine.tasks pid = some task → task.status = .running →
        ∀ call : Call, call.Served Platform.i386 →
          (machine.view task).Clean Platform.i386 call := by
  intro claimed
  obtain ⟨_, _, machine, next, call, _, fork, _, wake, same⟩ := exists_fork_after_alloc
  have run := Run.cons call (run_append.mpr ⟨machine, fork, run_singleton.mpr wake⟩)
  have here : next.tasks 1 = some { tsoMm := 0, mm := 0, status := .running } := by
    rw [same, Machine.setTask_tasks, if_pos rfl]
  have clean := claimed _ next run 1 _ here rfl (.free 0x1008) trivial
  exact clean.noTrap 0 (free_traps rfl 0 0x1008)

end TsoAlloc
