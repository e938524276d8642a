/-
This file states who owns what in a system of many tasks, and that `do_fork` respects it.
A copy holds the pointer of its parent from `dup_task_struct` on, but it is cleared before
the copy is woken, and its parent stays inside `do_fork` until then; so a record has one
owner, the task whose allocation set it up. Each owner's record represents a heap of its
own in the address space of the task, and the heaps of tasks that share an address space
lie in disjoint ranges.
-/

import TsoAlloc.Ledger
import TsoAlloc.Tasks

namespace TsoAlloc

open Transition

variable {platform : Platform} {machine next : Machine}

namespace Machine

/-! ### Entries of one pid -/

theorem setTask_tasks (machine : Machine) (pid other : Nat) (task : Option Task) :
    (machine.setTask pid task).tasks other = if other = pid then task else machine.tasks other :=
  Function.update_apply _ _ _ _

theorem setTask_setTask (machine : Machine) (pid : Nat) (first second : Option Task) :
    (machine.setTask pid first).setTask pid second = machine.setTask pid second := by
  unfold setTask
  rw [Function.update_idem]

theorem ne_of_status {first second : Nat} {left right : Task}
    (leftHere : machine.tasks first = some left) (rightHere : machine.tasks second = some right)
    (different : left.status ≠ right.status) : first ≠ second := by
  rintro rfl
  obtain rfl := Option.some.inj (leftHere.symm.trans rightHere)
  exact different rfl

theorem runs_of_running (machine : Machine) {pid : Nat} {task : Task}
    (here : machine.tasks pid = some task) (running : task.status = .running) :
    machine.Runs pid task := ⟨here, by rw [running]; trivial⟩

theorem runs_of_forking (machine : Machine) {pid child : Nat} {task : Task} {flags : CloneFlags}
    (here : machine.tasks pid = some task) (forking : task.status = .forking child flags) :
    machine.Runs pid task := ⟨here, by rw [forking]; trivial⟩

/-- A copy that has not been woken: its pointer is `NULL`, or `copy_process` has yet to clear it,
the parent is still inside `do_fork` and holds the same pointer, and the copy shares the address
space of the parent or has one to itself. -/
def IsCopy (machine : Machine) (parent child : Nat) (stage : Stage) (copy : Task) : Prop :=
  copy.tsoMm = 0 ∨ stage ≠ .cleared ∧
    ∃ task flags, machine.tasks parent = some task ∧ task.status = .forking child flags ∧
      task.tsoMm = copy.tsoMm ∧
        (copy.mm = task.mm ∨
          ∀ pid other, machine.tasks pid = some other → pid ≠ child → other.mm ≠ copy.mm)

/-- Every task that can run owns its record and its heap. -/
structure Owns (machine : Machine) (heaps : Nat → Option (Heap platform)) : Prop where
  strategy : ∃ strategy : AllocationStrategy, machine.currentStrategy = strategy.value
  recorded : ∀ pid task, machine.Runs pid task → task.tsoMm ≠ 0 →
    machine.objects task.tsoMm ≠ none
  holds : ∀ pid task, machine.Runs pid task → (machine.view task).Holds platform (heaps pid)
  exclusive : ∀ first second left right, machine.Runs first left → machine.Runs second right →
    first ≠ second → left.tsoMm ≠ 0 → left.tsoMm ≠ right.tsoMm
  mapped : ∀ pid task heap, machine.Runs pid task → heaps pid = some heap →
    ⟨heap.start, platform.initialSize⟩ ∈ (machine.spaces task.mm).mapped
  apart : ∀ first second left right leftHeap rightHeap, machine.Runs first left →
    machine.Runs second right → first ≠ second → left.mm = right.mm →
      heaps first = some leftHeap → heaps second = some rightHeap →
        leftHeap.stop ≤ rightHeap.start ∨ rightHeap.stop ≤ leftHeap.start
  copies : ∀ parent child stage copy, machine.tasks child = some copy →
    copy.status = .created parent stage → machine.IsCopy parent child stage copy

end Machine

/-! ### Steps of `do_fork` -/

/-- What a task owns it keeps when only the entries of tasks change: each task that can run is one
that could, with its record and its address space, or has no record. -/
theorem Machine.Owns.of_runs {heaps nextHeaps : Nat → Option (Heap platform)}
    (owns : machine.Owns heaps)
    (strategy : ∃ strategy : AllocationStrategy, next.currentStrategy = strategy.value)
    (objects : next.objects = machine.objects)
    (runs : ∀ pid task, next.Runs pid task →
      (∃ source, machine.Runs pid source ∧ source.tsoMm = task.tsoMm ∧ source.mm = task.mm ∧
        next.spaces task.mm = machine.spaces task.mm ∧ nextHeaps pid = heaps pid) ∨
          task.tsoMm = 0 ∧ nextHeaps pid = none)
    (copies : ∀ parent child stage copy, next.tasks child = some copy →
      copy.status = .created parent stage → next.IsCopy parent child stage copy) :
    next.Owns nextHeaps where
  strategy := strategy
  recorded := by
    intro pid task here pointer
    rcases runs pid task here with ⟨source, was, same, _⟩ | ⟨null, _⟩
    · rw [objects, ← same]
      exact owns.recorded pid source was (same ▸ pointer)
    · exact absurd null pointer
  holds := by
    intro pid task here
    rcases runs pid task here with ⟨source, was, same, space, kept, heap⟩ | ⟨null, heap⟩
    · have record : (next.view task).currentMm = (machine.view source).currentMm := by
        unfold Machine.view
        rw [objects, same]
      have memory : (next.view task).memory = (machine.view source).memory := by
        unfold Machine.view
        rw [kept, space]
      rw [heap]
      exact (owns.holds pid source was).congr record memory
    · rw [heap]
      show (if task.tsoMm = 0 then none else next.objects task.tsoMm) = none
      rw [if_pos null]
  exclusive := by
    intro first second left right here there different pointer
    rcases runs first left here with ⟨source, was, same, _⟩ | ⟨null, _⟩
    · rcases runs second right there with ⟨other, otherWas, otherSame, _⟩ | ⟨null, _⟩
      · rw [← same, ← otherSame]
        exact owns.exclusive first second source other was otherWas different (same ▸ pointer)
      · rw [null]
        exact pointer
    · exact absurd null pointer
  mapped := by
    intro pid task heap here held
    rcases runs pid task here with ⟨source, was, _, space, kept, same⟩ | ⟨_, none⟩
    · rw [kept, ← space]
      exact owns.mapped pid source heap was (same ▸ held)
    · rw [none] at held
      cases held
  apart := by
    intro first second left right leftHeap rightHeap here there different shared held otherHeld
    rcases runs first left here with ⟨source, was, _, space, _, same⟩ | ⟨_, none⟩
    · rcases runs second right there with ⟨other, otherWas, _, otherSpace, _, otherSame⟩ | ⟨_, none⟩
      · exact owns.apart first second source other leftHeap rightHeap was otherWas different
          (space.trans (shared.trans otherSpace.symm)) (same ▸ held) (otherSame ▸ otherHeld)
      · rw [none] at otherHeld
        cases otherHeld
    · rw [none] at held
      cases held
  copies := copies

/-- A copy stays a copy when its parent stays inside `do_fork`, and no task newly uses its address
space. -/
theorem Machine.IsCopy.transfer {parent child : Nat} {stage : Stage} {copy : Task}
    (isCopy : machine.IsCopy parent child stage copy)
    (forking : ∀ task flags, machine.tasks parent = some task →
      task.status = .forking child flags → next.tasks parent = some task)
    (spaces : ∀ pid other, next.tasks pid = some other → pid ≠ child → other.mm = copy.mm →
      ∃ source was, machine.tasks source = some was ∧ source ≠ child ∧ was.mm = copy.mm) :
    next.IsCopy parent child stage copy := by
  rcases isCopy with null | ⟨uncleared, task, flags, here, status, pointer, space⟩
  · exact Or.inl null
  · refine Or.inr ⟨uncleared, task, flags, forking task flags here status, status, pointer, ?_⟩
    rcases space with shared | own
    · exact Or.inl shared
    · refine Or.inr fun pid other there different same => ?_
      obtain ⟨source, was, wasHere, apart, wasSame⟩ := spaces pid other there different same
      exact own source was wasHere apart wasSame

namespace Machine.Owns

variable {heaps : Nat → Option (Heap platform)}

theorem dupTaskStruct (owns : machine.Owns heaps) {parent child : Nat} {task : Task}
    {flags : CloneFlags} (here : machine.tasks parent = some task)
    (running : task.status = .running) (fresh : machine.tasks child = none) :
    ((machine.setTask parent (some { task with status := .forking child flags })).setTask child
      (some { task with status := .created parent .duplicated })).Owns heaps := by
  have apart : parent ≠ child := fun same => by
    rw [same, fresh] at here
    cases here
  refine owns.of_runs owns.strategy rfl ?_ ?_
  · intro pid other ⟨there, canRun⟩
    left
    rw [setTask_tasks, setTask_tasks] at there
    split at there
    · obtain rfl := Option.some.inj there
      exact canRun.elim
    split at there
    · rename_i same
      obtain rfl := Option.some.inj there
      exact ⟨task, machine.runs_of_running (same ▸ here) running, rfl, rfl, rfl, rfl⟩
    · exact ⟨other, ⟨there, canRun⟩, rfl, rfl, rfl, rfl⟩
  · intro origin pid stage copy there created
    rw [setTask_tasks, setTask_tasks] at there
    split at there
    · rename_i same
      subst same
      obtain rfl := Option.some.inj there
      obtain ⟨rfl, rfl⟩ := Status.created.inj created
      refine Or.inr ⟨by decide, { task with status := .forking pid flags }, flags, ?_, rfl, rfl,
        Or.inl rfl⟩
      rw [setTask_tasks, setTask_tasks, if_neg apart, if_pos rfl]
    rename_i notChild
    split at there
    · obtain rfl := Option.some.inj there
      cases created
    rename_i notParent
    refine (owns.copies origin pid stage copy there created).transfer ?_ ?_
    · intro source sourceFlags sourceHere forking
      have originNotChild : origin ≠ child := by
        rintro rfl
        rw [fresh] at sourceHere
        cases sourceHere
      have originNotParent : origin ≠ parent :=
        ne_of_status sourceHere here (by rw [forking, running]; exact nofun)
      rw [setTask_tasks, setTask_tasks, if_neg originNotChild, if_neg originNotParent]
      exact sourceHere
    · intro other user userHere different same
      rw [setTask_tasks, setTask_tasks] at userHere
      split at userHere
      · obtain rfl := Option.some.inj userHere
        exact ⟨parent, task, here, Ne.symm notParent, same⟩
      split at userHere
      · obtain rfl := Option.some.inj userHere
        exact ⟨parent, task, here, Ne.symm notParent, same⟩
      · exact ⟨other, user, userHere, different, same⟩

/-- A step that rewrites the entry of one copy, which stays a copy with the same address space. -/
theorem setCopy (owns : machine.Owns heaps) {parent child : Nat} {stage later : Stage}
    {copy changed : Task} (here : machine.tasks child = some copy)
    (was : copy.status = .created parent stage) (becomes : changed.status = .created parent later)
    (space : changed.mm = copy.mm)
    (isCopy : (machine.setTask child (some changed)).IsCopy parent child later changed) :
    (machine.setTask child (some changed)).Owns heaps := by
  refine owns.of_runs owns.strategy rfl ?_ ?_
  · intro pid other ⟨there, canRun⟩
    rw [setTask_tasks] at there
    split at there
    · obtain rfl := Option.some.inj there
      rw [becomes] at canRun
      exact canRun.elim
    · exact Or.inl ⟨other, ⟨there, canRun⟩, rfl, rfl, rfl, rfl⟩
  · intro origin pid stage other there created
    rw [setTask_tasks] at there
    split at there
    · rename_i same
      subst same
      obtain rfl := Option.some.inj there
      obtain ⟨rfl, rfl⟩ := Status.created.inj (becomes.symm.trans created)
      exact isCopy
    rename_i notChild
    refine (owns.copies origin pid stage other there created).transfer ?_ ?_
    · intro source flags sourceHere forking
      have originNotChild : origin ≠ child :=
        ne_of_status sourceHere here (by rw [forking, was]; exact nofun)
      rw [setTask_tasks, if_neg originNotChild]
      exact sourceHere
    · intro user used usedHere different same
      rw [setTask_tasks] at usedHere
      split at usedHere
      · obtain rfl := Option.some.inj usedHere
        exact ⟨child, copy, here, Ne.symm notChild, space.symm.trans same⟩
      · exact ⟨user, used, usedHere, different, same⟩

/-- A copy that gets another entry goes on being one, while it has not been cleared. -/
theorem isCopy_setTask (owns : machine.Owns heaps) {parent child : Nat} {stage later : Stage}
    {copy changed : Task} (here : machine.tasks child = some copy)
    (was : copy.status = .created parent stage) (later_ne : later ≠ .cleared)
    (pointer : changed.tsoMm = copy.tsoMm) (space : changed.mm = copy.mm) :
    (machine.setTask child (some changed)).IsCopy parent child later changed := by
  rcases owns.copies parent child stage copy here was with null | ⟨_, task, flags, there, rest⟩
  · exact Or.inl (pointer.trans null)
  obtain ⟨forking, same, shared⟩ := rest
  have parentNotChild : parent ≠ child :=
    ne_of_status there here (by rw [forking, was]; exact nofun)
  refine Or.inr ⟨later_ne, task, flags, ?_, forking, same.trans pointer.symm, ?_⟩
  · rw [setTask_tasks, if_neg parentNotChild]
    exact there
  · rw [space]
    refine shared.imp_right fun own pid other otherHere different => ?_
    rw [setTask_tasks, if_neg different] at otherHere
    exact own pid other otherHere different

theorem attach (owns : machine.Owns heaps) {parent child : Nat} {copy : Task}
    (here : machine.tasks child = some copy) (was : copy.status = .created parent .mmCopied) :
    (machine.setTask child (some { copy with status := .created parent .attached })).Owns heaps :=
  owns.setCopy here was rfl rfl (owns.isCopy_setTask here was (by decide) rfl rfl)

theorem clearTsoMm (owns : machine.Owns heaps) {parent child : Nat} {copy : Task}
    (here : machine.tasks child = some copy) (was : copy.status = .created parent .attached) :
    (machine.setTask child
      (some { copy with tsoMm := 0, status := .created parent .cleared })).Owns heaps :=
  owns.setCopy here was rfl rfl (Or.inl rfl)

theorem copyMm (owns : machine.Owns heaps) {parent child space : Nat} {task copy : Task}
    {flags : CloneFlags} (here : machine.tasks parent = some task)
    (forking : task.status = .forking child flags) (copyHere : machine.tasks child = some copy)
    (was : copy.status = .created parent .duplicated)
    (fresh : flags.vm = false →
      ∀ pid other, machine.tasks pid = some other → other.mm ≠ space) :
    Machine.Owns
      { (machine.setTask child (some { copy with
          mm := if flags.vm then task.mm else space
          status := .created parent .mmCopied })) with
        spaces := if flags.vm then machine.spaces
          else Function.update machine.spaces space (machine.spaces task.mm) } heaps := by
  have parentNotChild : parent ≠ child :=
    ne_of_status here copyHere (by rw [forking, was]; exact nofun)
  refine owns.of_runs owns.strategy rfl ?_ ?_
  · intro pid other ⟨there, canRun⟩
    rw [setTask_tasks] at there
    split at there
    · obtain rfl := Option.some.inj there
      exact canRun.elim
    refine Or.inl ⟨other, ⟨there, canRun⟩, rfl, rfl, ?_, rfl⟩
    dsimp only
    split
    · rfl
    · rename_i unshared
      exact Function.update_of_ne
        (fresh (Bool.eq_false_of_not_eq_true unshared) pid other there) _ _
  · intro origin pid stage other there created
    rw [setTask_tasks] at there
    split at there
    · rename_i same
      subst same
      obtain rfl := Option.some.inj there
      obtain ⟨rfl, rfl⟩ := Status.created.inj created
      rcases owns.copies parent pid _ copy copyHere was with null | ⟨_, source, _, sourceHere, rest⟩
      · exact Or.inl null
      obtain rfl := Option.some.inj (here.symm.trans sourceHere)
      refine Or.inr ⟨by decide, task, flags, ?_, forking, rest.2.1, ?_⟩
      · rw [setTask_tasks, if_neg parentNotChild]
        exact here
      · dsimp only
        split
        · exact Or.inl rfl
        · rename_i unshared
          refine Or.inr fun user used usedHere different => ?_
          rw [setTask_tasks, if_neg different] at usedHere
          exact fresh (Bool.eq_false_of_not_eq_true unshared) user used usedHere
    rename_i notChild
    refine (owns.copies origin pid stage other there created).transfer ?_ ?_
    · intro source sourceFlags sourceHere sourceForking
      have originNotChild : origin ≠ child :=
        ne_of_status sourceHere copyHere (by rw [sourceForking, was]; exact nofun)
      rw [setTask_tasks, if_neg originNotChild]
      exact sourceHere
    · intro user used usedHere different same
      rw [setTask_tasks] at usedHere
      split at usedHere
      · obtain rfl := Option.some.inj usedHere
        dsimp only at same
        split at same
        · exact ⟨parent, task, here,
            ne_of_status here there (by rw [forking, created]; exact nofun), same⟩
        · rename_i unshared
          exact absurd same.symm (fresh (Bool.eq_false_of_not_eq_true unshared) pid other there)
      · exact ⟨user, used, usedHere, different, same⟩

theorem failFork (owns : machine.Owns heaps) {parent child : Nat} {task copy : Task}
    {flags : CloneFlags} {stage : Stage} (here : machine.tasks parent = some task)
    (forking : task.status = .forking child flags) (copyHere : machine.tasks child = some copy)
    (was : copy.status = .created parent stage) :
    ((machine.setTask parent (some { task with status := .running })).setTask child none).Owns
      heaps := by
  refine owns.of_runs owns.strategy rfl ?_ ?_
  · intro pid other ⟨there, canRun⟩
    left
    rw [setTask_tasks, setTask_tasks] at there
    split at there
    · cases there
    split at there
    · rename_i same
      obtain rfl := Option.some.inj there
      exact ⟨task, machine.runs_of_forking (same ▸ here) forking, rfl, rfl, rfl, rfl⟩
    · exact ⟨other, ⟨there, canRun⟩, rfl, rfl, rfl, rfl⟩
  · intro origin pid later other there created
    rw [setTask_tasks, setTask_tasks] at there
    split at there
    · cases there
    rename_i notChild
    split at there
    · obtain rfl := Option.some.inj there
      cases created
    rename_i notParent
    refine (owns.copies origin pid later other there created).transfer ?_ ?_
    · intro source sourceFlags sourceHere sourceForking
      have originNotChild : origin ≠ child :=
        ne_of_status sourceHere copyHere (by rw [sourceForking, was]; exact nofun)
      have originNotParent : origin ≠ parent := by
        rintro rfl
        obtain rfl := Option.some.inj (here.symm.trans sourceHere)
        obtain ⟨same, _⟩ := Status.forking.inj (forking.symm.trans sourceForking)
        exact notChild same.symm
      rw [setTask_tasks, setTask_tasks, if_neg originNotChild, if_neg originNotParent]
      exact sourceHere
    · intro user used usedHere different same
      rw [setTask_tasks, setTask_tasks] at usedHere
      split at usedHere
      · cases usedHere
      split at usedHere
      · obtain rfl := Option.some.inj usedHere
        exact ⟨parent, task, here, Ne.symm notParent, same⟩
      · exact ⟨user, used, usedHere, different, same⟩

theorem tsoMm_of_cleared (owns : machine.Owns heaps) {parent child : Nat} {copy : Task}
    (here : machine.tasks child = some copy) (was : copy.status = .created parent .cleared) :
    copy.tsoMm = 0 := by
  rcases owns.copies parent child _ copy here was with null | ⟨uncleared, _⟩
  · exact null
  · exact absurd rfl uncleared

theorem wakeUpNewTask (owns : machine.Owns heaps) {parent child : Nat} {copy : Task}
    (here : machine.tasks child = some copy) (was : copy.status = .created parent .cleared) :
    (machine.setTask child (some { copy with status := .running })).Owns
      (Function.update heaps child none) := by
  refine owns.of_runs owns.strategy rfl ?_ ?_
  · intro pid other ⟨there, canRun⟩
    rw [setTask_tasks] at there
    split at there
    · rename_i same
      subst same
      obtain rfl := Option.some.inj there
      have null : copy.tsoMm = 0 := owns.tsoMm_of_cleared here was
      exact Or.inr ⟨null, Function.update_self _ _ _⟩
    · rename_i notChild
      exact Or.inl ⟨other, ⟨there, canRun⟩, rfl, rfl, rfl, Function.update_of_ne notChild _ _⟩
  · intro origin pid stage other there created
    rw [setTask_tasks] at there
    split at there
    · obtain rfl := Option.some.inj there
      cases created
    rename_i notChild
    refine (owns.copies origin pid stage other there created).transfer ?_ ?_
    · intro source flags sourceHere forking
      have originNotChild : origin ≠ child :=
        ne_of_status sourceHere here (by rw [forking, was]; exact nofun)
      rw [setTask_tasks, if_neg originNotChild]
      exact sourceHere
    · intro user used usedHere different same
      rw [setTask_tasks] at usedHere
      split at usedHere
      · obtain rfl := Option.some.inj usedHere
        exact ⟨child, copy, here, Ne.symm notChild, same⟩
      · exact ⟨user, used, usedHere, different, same⟩

theorem returnFork (owns : machine.Owns heaps) {parent child : Nat} {task copy : Task}
    {flags : CloneFlags} (here : machine.tasks parent = some task)
    (forking : task.status = .forking child flags) (copyHere : machine.tasks child = some copy)
    (woken : copy.status.CanRun) :
    (machine.setTask parent (some { task with status := .running })).Owns heaps := by
  refine owns.of_runs owns.strategy rfl ?_ ?_
  · intro pid other ⟨there, canRun⟩
    left
    rw [setTask_tasks] at there
    split at there
    · rename_i same
      obtain rfl := Option.some.inj there
      exact ⟨task, machine.runs_of_forking (same ▸ here) forking, rfl, rfl, rfl, rfl⟩
    · exact ⟨other, ⟨there, canRun⟩, rfl, rfl, rfl, rfl⟩
  · intro origin pid stage other there created
    rw [setTask_tasks] at there
    split at there
    · obtain rfl := Option.some.inj there
      cases created
    rename_i notParent
    refine (owns.copies origin pid stage other there created).transfer ?_ ?_
    · intro source sourceFlags sourceHere sourceForking
      have originNotParent : origin ≠ parent := by
        rintro rfl
        obtain rfl := Option.some.inj (here.symm.trans sourceHere)
        obtain ⟨rfl, _⟩ := Status.forking.inj (forking.symm.trans sourceForking)
        obtain rfl := Option.some.inj (copyHere.symm.trans there)
        rw [created] at woken
        exact woken
      rw [setTask_tasks, if_neg originNotParent]
      exact sourceHere
    · intro user used usedHere different same
      rw [setTask_tasks] at usedHere
      split at usedHere
      · obtain rfl := Option.some.inj usedHere
        exact ⟨parent, task, here, Ne.symm notParent, same⟩
      · exact ⟨user, used, usedHere, different, same⟩

end Machine.Owns

end TsoAlloc
