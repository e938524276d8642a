/-
This file settles what a failed initialization leaves. `tso_mm_initialize` tests neither of
its two resources: it writes through the result of `kmalloc`, so that a task whose `kmalloc`
fails traps, and it takes whatever `vm_mmap` returns for the start of the mapping, so that an
error number becomes a mapping that ends behind the address space. The record is never looked
at again: it describes a granted range in all later states exactly when the one call that set
it up was granted one.
-/

import TsoAlloc.Placement
import TsoAlloc.Tampering

namespace TsoAlloc

open Transition

section

variable (platform : Platform)

/-- `vm_mmap` returned a range inside the address space that does not begin at zero. -/
def Environment.MapsRange (environment : Environment) : Prop :=
  0 < environment.vmMmap ∧ environment.vmMmap + platform.initialSize ≤ platform.modulus

/-- `vm_mmap` returned a negated error number, which lies in the last page. -/
def Environment.FailsToMap (environment : Environment) : Prop :=
  platform.modulus < environment.vmMmap + platform.pageSize ∧
    environment.vmMmap < platform.modulus

/-- A call that a task may attempt: a request that does not wrap, whatever `kmalloc` and `vm_mmap`
answer, any free, and one of the three strategies. -/
def Call.Attempted : Call → Prop
  | .alloc environment size =>
    (environment.MapsRange platform ∨ environment.FailsToMap platform) ∧
      platform.headerSize + size < platform.modulus
  | .free _ => True
  | .switchStrategy strategy => ∃ enumerator : AllocationStrategy, strategy = enumerator.value

/-- An attempted call that returns. -/
def AttemptedStep (before : Kernel) (event : Event) (after : Kernel) : Prop :=
  event.call.Attempted platform ∧ Step platform before event after

/-- `kmalloc` or `vm_mmap` fails inside the call, which calls them when the task has no mapping. -/
def Kernel.FailsToInitialize (kernel : Kernel) : Call → Prop
  | .alloc environment _ =>
    kernel.currentMm = none ∧ (environment.kmalloc = false ∨ environment.FailsToMap platform)
  | .free _ => False
  | .switchStrategy _ => False

/-- If the initialization fails inside the call, the call returns an error, writes no header, and
leaves the task without a mapping, so that the next allocation tries again. -/
def Kernel.FailsCleanly (kernel : Kernel) (call : Call) : Prop :=
  kernel.FailsToInitialize platform call → ∃ fuel outcome,
    invoke platform fuel kernel call = .ok outcome ∧ outcome.ret ≠ 0 ∧ outcome.stores = [] ∧
      outcome.kernel.currentMm = none

/-- The record describes the range that `vm_mmap` granted to an allocation of a run by a task
without a mapping. -/
def Kernel.GrantedIn (start : Kernel) (events : List Event) (mm : TsoMmMapping) : Prop :=
  ∃ front environment size answer back before,
    events = front ++ ⟨.alloc environment size, answer⟩ :: back ∧
      Run (AttemptedStep platform) start front before ∧ before.currentMm = none ∧
        environment.MapsRange platform ∧ mm.start = environment.vmMmap ∧
          mm.size = platform.initialSize

/-- No call of a run fails to initialize. -/
def Kernel.NeverFailsToInitialize (start : Kernel) (events : List Event) (last : Kernel) : Prop :=
  ∀ front event back before, events = front ++ event :: back →
    Run (AttemptedStep platform) start front before →
      Run (AttemptedStep platform) before (event :: back) last →
        ¬ before.FailsToInitialize platform event.call

end

variable {platform : Platform} {kernel after : Kernel} {environment : Environment} {size : Nat}

/-! ### One call -/

theorem Environment.MapsRange.not_failsToMap (maps : environment.MapsRange platform) :
    ¬ environment.FailsToMap platform := by
  have inside := maps.2
  rintro ⟨last, _⟩
  unfold Platform.initialSize at inside
  omega

/-- An allocation that returns has a record, over the range that the record had before, or over
whatever `vm_mmap` returned. -/
theorem sysTsoMmAlloc_record {fuel : Nat} {outcome : Outcome}
    (fits : platform.headerSize + size < platform.modulus)
    (returned : sysTsoMmAlloc platform fuel environment size kernel = .ok outcome) :
    ∃ mm used, outcome.kernel.currentMm = some mm ∧ kernel.Uses platform environment used ∧
      mm.start = used.start ∧ mm.size = used.size := by
  have uses : ∃ used, kernel.Uses platform environment used := by
    cases mapped : kernel.currentMm with
    | some used => exact ⟨used, Or.inl mapped⟩
    | none =>
      cases initialized : tsoMmInitialize platform environment with
      | ok used => exact ⟨used, Or.inr ⟨mapped, initialized⟩⟩
      | error trap =>
        simp only [sysTsoMmAlloc, sysTsoMmAllocObserving, mapped, initialized, bind,
          Except.bind] at returned
        cases returned
  obtain ⟨used, uses⟩ := uses
  have worked := (uses.alloc_eq fuel (fun _ => kernel.currentStrategy) size).symm.trans returned
  obtain ⟨mm, mapped, range⟩ := (allocMapped_keeps fits worked).record
  exact ⟨mm, used, mapped, uses, range⟩

theorem Kernel.Uses.initialized {mm : TsoMmMapping} (uses : kernel.Uses platform environment mm)
    (unmapped : kernel.currentMm = none) :
    environment.kmalloc = true ∧ mm.start = environment.vmMmap ∧
      mm.size = platform.initialSize := by
  rcases uses with mapped | ⟨_, initialized⟩
  · rw [unmapped] at mapped
    cases mapped
  · unfold tsoMmInitialize at initialized
    split at initialized
    · rename_i object
      obtain rfl := Except.ok.inj initialized
      exact ⟨object, rfl, rfl⟩
    · cases initialized

/-- A call fails cleanly if and only if its initialization does not fail. -/
theorem Kernel.failsCleanly_iff {call : Call} (attempted : call.Attempted platform) :
    kernel.FailsCleanly platform call ↔ ¬ kernel.FailsToInitialize platform call := by
  constructor
  · intro cleanly fails
    obtain ⟨fuel, outcome, returned, _, _, left⟩ := cleanly fails
    cases call with
    | alloc environment size =>
      obtain ⟨mm, _, mapped, _⟩ := sysTsoMmAlloc_record attempted.2 returned
      rw [left] at mapped
      cases mapped
    | free addr => exact fails
    | switchStrategy strategy => exact fails
  · exact fun succeeds fails => absurd fails succeeds

/-- A call of a task with a mapping leaves the range of the mapping. -/
theorem AttemptedStep.range {event : Event} (step : AttemptedStep platform kernel event after)
    {mm : TsoMmMapping} (mapped : kernel.currentMm = some mm) :
    ∃ later, after.currentMm = some later ∧ later.start = mm.start ∧ later.size = mm.size := by
  obtain ⟨attempted, fuel, outcome, returned, _, rfl⟩ := step
  cases shape : event.call with
  | alloc environment size =>
    rw [shape] at attempted returned
    obtain ⟨later, used, found, uses, range⟩ := sysTsoMmAlloc_record attempted.2 returned
    obtain rfl := uses.unique (Or.inl mapped)
    exact ⟨later, found, range⟩
  | free addr =>
    rw [shape] at returned
    exact (sysTsoMmFree_keeps mapped returned).record
  | switchStrategy strategy =>
    rw [shape] at returned
    obtain rfl := Except.ok.inj returned
    exact ⟨mm, mapped, rfl, rfl⟩

/-- A task that has a mapping after a call and had none before has just allocated, and its record
is over what `vm_mmap` returned. -/
theorem AttemptedStep.initialized {event : Event}
    (step : AttemptedStep platform kernel event after) (unmapped : kernel.currentMm = none)
    {mm : TsoMmMapping} (mapped : after.currentMm = some mm) :
    ∃ environment size answer, event = ⟨.alloc environment size, answer⟩ ∧
      environment.kmalloc = true ∧ mm.start = environment.vmMmap ∧
        mm.size = platform.initialSize := by
  obtain ⟨attempted, fuel, outcome, returned, _, rfl⟩ := step
  obtain ⟨call, answer⟩ := event
  cases call with
  | alloc environment size =>
    obtain ⟨later, used, found, uses, start, length⟩ := sysTsoMmAlloc_record attempted.2 returned
    obtain rfl := Option.some.inj (found.symm.trans mapped)
    obtain ⟨object, from_, whole⟩ := uses.initialized unmapped
    exact ⟨environment, size, answer, rfl, object, start.trans from_, length.trans whole⟩
  | free addr =>
    simp only [invoke, sysTsoMmFree, unmapped] at returned
    cases returned
  | switchStrategy strategy =>
    obtain rfl := Except.ok.inj returned
    have still : kernel.currentMm = some mm := mapped
    rw [unmapped] at still
    cases still

/-! ### Runs -/

theorem range_of_run {start last : Kernel} {events : List Event}
    (run : Run (AttemptedStep platform) start events last) {mm : TsoMmMapping}
    (mapped : start.currentMm = some mm) :
    ∃ later, last.currentMm = some later ∧ later.start = mm.start ∧ later.size = mm.size := by
  have started : ∃ later, start.currentMm = some later ∧ later.start = mm.start ∧
      later.size = mm.size := ⟨mm, mapped, rfl, rfl⟩
  have kept : ∀ before event after, (∃ later, before.currentMm = some later ∧
      later.start = mm.start ∧ later.size = mm.size) → AttemptedStep platform before event after →
        ∃ later, after.currentMm = some later ∧ later.start = mm.start ∧ later.size = mm.size := by
    rintro before event after ⟨later, held, sameStart, sameSize⟩ step
    obtain ⟨found, foundMapped, foundStart, foundSize⟩ := step.range held
    exact ⟨found, foundMapped, foundStart.trans sameStart, foundSize.trans sameSize⟩
  exact run.invariant started kept

/-- After a run in which no call fails to initialize, a mapping is a granted range. -/
theorem granted_of_neverFailsToInitialize {start last : Kernel} (fresh : start.Fresh)
    {events : List Event} (run : Run (AttemptedStep platform) start events last)
    (never : start.NeverFailsToInitialize platform events last) :
    ∀ mm, last.currentMm = some mm → start.GrantedIn platform events mm := by
  have started : ∀ mm, start.currentMm = some mm → start.GrantedIn platform events mm := by
    intro mm mapped
    rw [fresh.1] at mapped
    cases mapped
  refine run.along (fun state => ∀ mm, state.currentMm = some mm →
    start.GrantedIn platform events mm) started ?_
  intro front event back before after split walked step rest granted mm mapped
  cases held : before.currentMm with
  | some was =>
    obtain ⟨later, found, sameStart, sameSize⟩ := step.range held
    obtain rfl := Option.some.inj (found.symm.trans mapped)
    obtain ⟨first, environment, size, answer, second, state, shape, reached, unmapped, maps,
      here, whole⟩ := granted was held
    exact ⟨first, environment, size, answer, second, state, shape, reached, unmapped, maps,
      sameStart.trans here, sameSize.trans whole⟩
  | none =>
    obtain ⟨environment, size, answer, rfl, _, here, whole⟩ := step.initialized held mapped
    have maps : environment.MapsRange platform := step.1.1.resolve_right fun fails =>
      never front _ back before split walked (Run.cons step rest) ⟨held, Or.inr fails⟩
    exact ⟨front, environment, size, answer, back, before, split, walked, held, maps, here, whole⟩

/-- After a run, a mapping is a granted range if and only if no call of the run fails to
initialize. -/
theorem granted_iff_of_run {start last : Kernel} (fresh : start.Fresh) {events : List Event}
    (run : Run (AttemptedStep platform) start events last) :
    (∀ mm, last.currentMm = some mm → start.GrantedIn platform events mm) ↔
      start.NeverFailsToInitialize platform events last := by
  refine ⟨?_, granted_of_neverFailsToInitialize fresh run⟩
  rintro granted front ⟨call, answer⟩ back before _ _ rest fails
  obtain ⟨after, step, remaining⟩ := run_cons.mp rest
  cases call with
  | free addr => exact fails
  | switchStrategy strategy => exact fails
  | alloc environment size =>
    obtain ⟨unmapped, failed⟩ := fails
    obtain ⟨attempted, fuel, outcome, returned, _, rfl⟩ := step
    obtain ⟨mm, used, mapped, uses, range, _⟩ := sysTsoMmAlloc_record attempted.2 returned
    obtain ⟨object, here, _⟩ := uses.initialized unmapped
    obtain ⟨later, found, sameStart, _⟩ := range_of_run remaining mapped
    obtain ⟨_, granter, _, _, _, _, _, _, _, maps, there, _⟩ := granted later found
    rcases failed with failed | failed
    · rw [object] at failed
      cases failed
    · -- The error number is still the start of the mapping, and no range begins there.
      have shared : granter.vmMmap = environment.vmMmap := by
        rw [← there, sameStart, range, here]
      refine maps.not_failsToMap ?_
      rwa [Environment.FailsToMap, shared]

/-- In every state that a run of attempted calls reaches, every attempted call fails cleanly if and
only if it is not an allocation by a task without a mapping for which `kmalloc` or `vm_mmap` fails;
and a mapping is a granted range if and only if no call of the run was such an allocation. -/
theorem failsCleanly_iff_of_run {start last : Kernel} {events : List Event} (fresh : start.Fresh)
    (run : Run (AttemptedStep platform) start events last) :
    (∀ call : Call, call.Attempted platform →
      (last.FailsCleanly platform call ↔ ¬ last.FailsToInitialize platform call)) ∧
      ((∀ mm, last.currentMm = some mm → start.GrantedIn platform events mm) ↔
        start.NeverFailsToInitialize platform events last) :=
  ⟨fun _ attempted => Kernel.failsCleanly_iff attempted, granted_iff_of_run fresh run⟩

/-- A legal call may be attempted. -/
theorem Call.Legal.attempted {call : Call} (legal : call.Legal platform kernel) :
    call.Attempted platform := by
  cases call with
  | alloc environment size => exact ⟨Or.inl ⟨legal.1.start_pos, legal.1.fits⟩, legal.2⟩
  | free addr => trivial
  | switchStrategy strategy => exact legal

theorem failsCleanly_sample : ∃ after mm,
    Run (LegalStep Platform.i386) (Kernel.boot fun _ => 0)
        [⟨.alloc .secondPage 8, 0, some 0x1008⟩] after ∧
      after.currentMm = some mm ∧ Kernel.GrantedIn Platform.i386 (Kernel.boot fun _ => 0)
        [⟨.alloc .secondPage 8, 0, some 0x1008⟩] mm ∧
          after.FailsCleanly Platform.i386 (.alloc ⟨false, 0xfffffff4, 0⟩ 40) := by
  obtain ⟨after, legalRun, mapped, _⟩ := exists_run_firstBlock
  have run := legalRun.mono fun _ _ _ step => (⟨step.1.attempted, step.2⟩ :
    AttemptedStep Platform.i386 _ _ _)
  obtain ⟨cleanly, granted⟩ := failsCleanly_iff_of_run (Kernel.fresh_boot _) run
  have attempted : Call.Attempted Platform.i386 (.alloc ⟨false, 0xfffffff4, 0⟩ 40) := by
    simp only [Call.Attempted, Environment.MapsRange, Environment.FailsToMap]
    decide
  refine ⟨after, _, legalRun, mapped, granted.mpr ?_ _ mapped, (cleanly _ attempted).mpr ?_⟩
  · intro front event back before split _ _
    have member : event ∈ [(⟨.alloc .secondPage 8, 0, some 0x1008⟩ : Event)] := by
      rw [split]
      exact List.mem_append_cons_self
    obtain rfl := List.mem_singleton.mp member
    rintro ⟨_, failed | ⟨failed, _⟩⟩
    · cases failed
    · revert failed
      decide
  · rintro ⟨unmapped, _⟩
    rw [mapped] at unmapped
    cases unmapped

/-- The first allocation of a task gets an error number from `vm_mmap`. -/
theorem not_failsCleanly_first : ¬ ∀ (start last : Kernel) (events : List Event), start.Fresh →
    Run (AttemptedStep Platform.i386) start events last → ∀ call : Call,
      call.Attempted Platform.i386 → last.FailsCleanly Platform.i386 call := by
  intro always
  have attempted : Call.Attempted Platform.i386 (.alloc ⟨true, 0xfffffff4, 0⟩ 8) := by
    simp only [Call.Attempted, Environment.MapsRange, Environment.FailsToMap]
    decide
  have cleanly := always _ _ [] (Kernel.fresh_boot fun _ => 0) (Run.nil _) _ attempted
  refine (Kernel.failsCleanly_iff attempted).mp cleanly ⟨rfl, Or.inr ?_⟩
  rw [Environment.FailsToMap]
  decide

end TsoAlloc
