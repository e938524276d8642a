/-
This file settles what becomes of a block whose address cannot be delivered. The region is
linked and debited before `copy_to_user` is called, and what `copy_to_user` returns is not
looked at. So when the caller's variable cannot be written, a request for which a gap is
found leaves a region behind that nobody can free: the call returns 0, and from then on the
list has one block more than the callers have received.
-/

import TsoAlloc.Ledger
import TsoAlloc.Placement

namespace TsoAlloc

open Extents Transition

section

variable (platform : Platform)

/-- The region list of a task, which is empty as long as there is no mapping. -/
def Kernel.Lists (kernel : Kernel) (regions : List Region) : Prop :=
  match kernel.currentMm with
  | none => regions = []
  | some mm => Listed platform kernel.memory mm.firstRegion regions

/-- Some gap of the mapping passes the size test. -/
def Kernel.FindsGap (kernel : Kernel) (environment : Environment) (size : Nat) : Prop :=
  ∃ mm front back, kernel.Uses platform environment mm ∧
    Listed platform kernel.memory mm.firstRegion (front ++ back) ∧
      PassesTest platform size mm front back

/-- An allocation returns 0, exactly one region was linked, and the address of its payload was
delivered; or it returns an error, and the record and the list are as before the call. -/
def Kernel.DeliversOrRefuses (kernel : Kernel) (environment : Environment) (size : Nat) : Prop :=
  ∃ fuel outcome mm, sysTsoMmAlloc platform fuel environment size kernel = .ok outcome ∧
    kernel.Uses platform environment mm ∧
      ((outcome.ret = 0 ∧ ∃ placed front region back, outcome.kernel.currentMm = some placed ∧
          Listed platform kernel.memory mm.firstRegion (front ++ back) ∧
            Listed platform outcome.kernel.memory placed.firstRegion (front ++ region :: back) ∧
              region.size = size ∧ outcome.delivered = some (region.payload platform)) ∨
        (outcome.ret ≠ 0 ∧ outcome.kernel.currentMm = some mm ∧ ∃ regions,
          Listed platform kernel.memory mm.firstRegion regions ∧
            Listed platform outcome.kernel.memory mm.firstRegion regions))

/-- A call whose block nobody receives: an allocation that finds a gap while `copy_to_user`
fails. -/
def Call.LosesBlock (kernel : Kernel) : Call → Prop
  | .alloc environment size =>
    environment.copyToUser ≠ 0 ∧ kernel.FindsGap platform environment size
  | .free _ => False
  | .switchStrategy _ => False

/-- The live regions are the blocks of the ledger. -/
def Kernel.Accounts (kernel : Kernel) (ledger : List Block) : Prop :=
  ∃ regions, kernel.Lists platform regions ∧ (regions.map (Region.block platform)).Perm ledger

/-- After every call of a run, the live regions are the blocks that were received and have not
been freed. -/
def Kernel.AccountsThroughout (start : Kernel) (events : List Event) (last : Kernel) : Prop :=
  ∀ front back middle, events = front ++ back → Run (LegalStep platform) start front middle →
    Run (LegalStep platform) middle back last → middle.Accounts platform (front.foldl record [])

/-- No call of a run loses a block. -/
def Kernel.NeverLosesBlock (start : Kernel) (events : List Event) (last : Kernel) : Prop :=
  ∀ front event back before, events = front ++ event :: back →
    Run (LegalStep platform) start front before →
      Run (LegalStep platform) before (event :: back) last →
        ¬ event.call.LosesBlock platform before

end

variable {platform : Platform} {kernel : Kernel}

/-! ### One call -/

/-- In a state that models a task, some gap passes the size test when a gap of the heap admits the
region. -/
theorem Kernel.Models.findsGap_iff {task : TaskState platform} (models : kernel.Models task)
    {environment : Environment} (grants : environment.Grants platform) {size : Nat}
    (fits : platform.headerSize + size < platform.modulus) :
    kernel.FindsGap platform environment size ↔
      ∃ room, (task.heapFor grants).Admits (platform.headerSize + size) room := by
  obtain ⟨mm, uses, represents⟩ := models.uses grants
  have exactSize : regionSize platform size = platform.headerSize + size := Platform.add_of_lt fits
  constructor
  · rintro ⟨other, front, back, otherUses, listed, passes⟩
    obtain rfl := uses.unique otherUses
    obtain ⟨split, gap⟩ := represents.toDescribes.gap listed
    rw [PassesTest, exactSize] at passes
    rcases passes with longer | ⟨empty, enough⟩
    · exact ⟨_, gap, Or.inl longer⟩
    · have nothing := split.trans empty
      rw [represents.free_of_empty nothing] at enough
      have whole := (task.heapFor grants).gaps_of_empty nothing
      exact ⟨⟨none, (task.heapFor grants).start, platform.initialSize⟩,
        whole ▸ List.mem_singleton_self _, Or.inr ⟨nothing, enough⟩⟩
  · rintro ⟨room, admits⟩
    obtain ⟨front, back, split, _, _, length⟩ := represents.toDescribes.halves admits.1
    have listed : Listed platform kernel.memory mm.firstRegion (front ++ back) :=
      split ▸ represents.listed
    exact ⟨mm, front, back, uses, listed, represents.passesTest admits exactSize listed length⟩

/-- In a state that models a task, an allocation delivers or refuses unless it loses the block. -/
theorem Kernel.Models.deliversOrRefuses_iff {task : TaskState platform}
    (models : kernel.Models task) {environment : Environment}
    (grants : environment.Grants platform) {size : Nat}
    (fits : platform.headerSize + size < platform.modulus) :
    kernel.DeliversOrRefuses platform environment size ↔
      environment.copyToUser = 0 ∨ ¬ kernel.FindsGap platform environment size := by
  rw [models.findsGap_iff grants fits]
  obtain ⟨mm, uses, represents, returned⟩ := models.alloc grants fits
  have enough := returned _ (Nat.lt_succ_self _)
  obtain nothing | ⟨room, chosen⟩ := Option.eq_none_or_eq_some
    ((task.heapFor grants).choose task.strategy (platform.headerSize + size))
  · rw [nothing] at enough
    have nowhere := (task.heapFor grants).choose_eq_none.mp nothing
    refine iff_of_true ?_ (Or.inr fun ⟨room, admits⟩ => nowhere room admits)
    have failed : (-1 : Int) ≠ 0 := by decide
    exact ⟨_, _, mm, enough, uses, Or.inr ⟨failed, rfl, _, represents.listed, represents.listed⟩⟩
  · rw [chosen] at enough
    have admits := (task.heapFor grants).admits_of_choose chosen
    constructor
    · rintro ⟨fuel, outcome, other, called, _, answered⟩
      obtain rfl :=
        (sysTsoMmAllocObserving_stable _ environment size kernel).unique called enough
      rcases answered with ⟨_, _, _, _, _, _, _, _, _, delivered⟩ | ⟨failed, _⟩
      · left
        by_contra uncopied
        simp [settledOutcome, placedOutcome, uncopied] at delivered
      · exact absurd rfl failed
    · rintro (copied | nowhere)
      · obtain ⟨front, back, split, _, base, _⟩ := represents.toDescribes.halves admits.1
        have placed := represents.regions_place admits split base
        have after := (represents.place admits).listed
        rw [placed] at after
        have payload := (task.heapFor grants).add_base admits
        refine ⟨_, _, mm, enough, uses, Or.inl ⟨rfl, _, front, ⟨room.base, size⟩, back, rfl,
          split ▸ represents.listed, after, rfl, ?_⟩⟩
        simp [settledOutcome, placedOutcome, copied, payload, Region.payload]
      · exact absurd ⟨room, admits⟩ nowhere

/-! ### Runs -/

theorem Kernel.Models.lists_iff {task : TaskState platform} (models : kernel.Models task)
    {regions : List Region} : kernel.Lists platform regions ↔ task.regions = regions := by
  obtain ⟨strategy, _ | heap⟩ := task
  · have unmapped : kernel.currentMm = none := models.2
    simp only [Kernel.Lists, unmapped, TaskState.regions, eq_comm]
  · obtain ⟨mm, mapped, represents⟩ := models.2
    simp only [Kernel.Lists, mapped, TaskState.regions]
    exact ⟨fun listed => represents.listed.unique listed, fun same => same ▸ represents.listed⟩

theorem Kernel.Models.accounts_iff {task : TaskState platform} (models : kernel.Models task)
    {ledger : List Block} :
    kernel.Accounts platform ledger ↔ (task.regions.map (Region.block platform)).Perm ledger := by
  simp only [Kernel.Accounts, models.lists_iff, exists_eq_left']

/-- A call that delivers loses no block. -/
theorem Call.Delivers.not_losesBlock {call : Call} (delivers : call.Delivers) :
    ¬ call.LosesBlock platform kernel := by
  cases call with
  | alloc environment size =>
    rintro ⟨uncopied, _⟩
    exact uncopied delivers
  | free addr => exact not_false
  | switchStrategy strategy => exact not_false

/-- A step from exact books leads to exact books unless it loses a block. -/
theorem Kernel.Models.accounts_step_iff {after : Kernel} {task : TaskState platform} {event : Event}
    {ledger : List Block} (models : kernel.Models task) (accounts : kernel.Accounts platform ledger)
    (step : LegalStep platform kernel event after) :
    after.Accounts platform (record ledger event) ↔ ¬ event.call.LosesBlock platform kernel := by
  have tracks := models.accounts_iff.mp accounts
  obtain ⟨next, taskStep, refined, _⟩ := step_refines models step
  rw [refined.accounts_iff]
  by_cases delivers : event.call.Delivers
  · exact iff_of_true (taskStep.record delivers tracks) delivers.not_losesBlock
  · cases taskStep with
    | free => exact absurd trivial delivers
    | switchStrategy => exact absurd trivial delivers
    | alloc strategy heap environment size grants =>
      have uncopied : environment.copyToUser ≠ 0 := delivers
      rw [← TaskState.regions_getD strategy heap grants] at tracks
      simp only [Call.LosesBlock, models.findsGap_iff grants step.1.2, uncopied, ne_eq,
        not_false_eq_true, true_and, TaskState.heapFor, TaskState.regions]
      cases chosen : (heap.getD grants.heap).choose strategy (platform.headerSize + size) with
      | none =>
        rw [Heap.alloc_of_none chosen]
        refine iff_of_true tracks ?_
        rintro ⟨room, admits⟩
        exact (heap.getD grants.heap).choose_eq_none.mp chosen room admits
      | some room =>
        have admits := (heap.getD grants.heap).admits_of_choose chosen
        rw [Heap.alloc_of_some chosen]
        refine iff_of_false (fun exactly => ?_) (fun nowhere => nowhere ⟨room, admits⟩)
        simp only [record, uncopied, if_false, Option.map_none, Option.toList_none,
          List.nil_append] at exactly
        -- The list has grown by one block, and the ledger has not.
        have grown := ((heap.getD grants.heap).block_place admits).length_eq
        have level := exactly.length_eq.trans tracks.length_eq.symm
        simp only [List.length_cons] at grown
        omega

/-- From exact books a run that loses no block leads to exact books. -/
theorem Kernel.Models.accounts_of_neverLosesBlock {last : Kernel} {task : TaskState platform}
    {events : List Event} {ledger : List Block} (models : kernel.Models task)
    (accounts : kernel.Accounts platform ledger)
    (run : Run (LegalStep platform) kernel events last)
    (never : kernel.NeverLosesBlock platform events last) :
    last.Accounts platform (events.foldl record ledger) := by
  induction run generalizing task ledger with
  | nil state => exact accounts
  | @cons first second last event events step rest inductionHypothesis =>
    have kept : ¬ event.call.LosesBlock platform first :=
      never [] event events first rfl (Run.nil first) (Run.cons step rest)
    obtain ⟨next, _, refined, _⟩ := step_refines models step
    refine inductionHypothesis refined ((models.accounts_step_iff accounts step).mpr kept) ?_
    intro front later back before split walked remaining
    exact never (event :: front) later back before (by rw [split, List.cons_append])
      (Run.cons step walked) remaining

/-- A run from a task without a mapping keeps exact books throughout when it loses no block. -/
theorem accountsThroughout_iff {start last : Kernel} (fresh : start.Fresh) (events : List Event) :
    start.AccountsThroughout platform events last ↔
      start.NeverLosesBlock platform events last := by
  obtain ⟨strategy, models⟩ := fresh.models platform
  constructor
  · intro exactly front event back before split walked rest
    obtain ⟨after, step, remaining⟩ := run_cons.mp rest
    obtain ⟨task, here⟩ := models_of_run fresh walked
    have later := exactly (front ++ [event]) back after (by rw [split, List.append_assoc]; rfl)
      (run_append.mpr ⟨before, walked, run_singleton.mpr step⟩) remaining
    rw [List.foldl_append] at later
    exact (here.accounts_step_iff (exactly front _ before split walked rest) step).mp later
  · intro never front back middle split walked rest
    have nothing : start.Accounts platform [] := models.accounts_iff.mpr (List.Perm.refl _)
    refine models.accounts_of_neverLosesBlock nothing walked ?_
    intro first event second before frontSplit earlier remaining
    refine never first event (second ++ back) before ?_ earlier
      (run_append.mpr ⟨middle, remaining, rest⟩)
    rw [split, frontSplit, List.append_assoc, List.cons_append]

/-- In every state that a run of legal calls reaches, an allocation delivers the address of the one
region it links or refuses the request and changes nothing, if and only if `copy_to_user` succeeds
or no gap passes the size test; and throughout the run the live regions are the blocks that were
received and have not been freed, if and only if no allocation of the run finds a gap while
`copy_to_user` fails. -/
theorem deliversOrRefuses_iff_of_run {start last : Kernel} {events : List Event}
    (fresh : start.Fresh) (run : Run (LegalStep platform) start events last) :
    (∀ environment : Environment, environment.Grants platform → ∀ size,
      platform.headerSize + size < platform.modulus →
        (last.DeliversOrRefuses platform environment size ↔
          environment.copyToUser = 0 ∨ ¬ last.FindsGap platform environment size)) ∧
      (start.AccountsThroughout platform events last ↔
        start.NeverLosesBlock platform events last) := by
  refine ⟨?_, accountsThroughout_iff fresh events⟩
  intro environment grants size fits
  obtain ⟨task, models⟩ := models_of_run fresh run
  exact models.deliversOrRefuses_iff grants fits

theorem deliversOrRefuses_sample : ∃ after,
    Run (LegalStep Platform.i386) (Kernel.boot fun _ => 0)
        [⟨.alloc .secondPage 8, 0, some 0x1008⟩] after ∧
      after.DeliversOrRefuses Platform.i386 .secondPage 40 ∧
        after.Accounts Platform.i386 [⟨0x1008, 8⟩] := by
  obtain ⟨after, run, mapped, listed⟩ := exists_run_firstBlock
  obtain ⟨delivers, accounts⟩ := deliversOrRefuses_iff_of_run (Kernel.fresh_boot _) run
  have grants : Environment.secondPage.Grants Platform.i386 := by decide
  refine ⟨after, run, (delivers _ grants 40 (by decide)).mpr (Or.inl rfl), ?_⟩
  refine accounts.mpr ?_ _ [] after rfl run (Run.nil after)
  intro front event back before split _ _
  have member : event ∈ [(⟨.alloc .secondPage 8, 0, some 0x1008⟩ : Event)] := by
    rw [split]
    exact List.mem_append_cons_self
  obtain rfl := List.mem_singleton.mp member
  exact fun ⟨uncopied, _⟩ => uncopied rfl

/-- The first allocation of a task fails to write the address. -/
theorem not_deliversOrRefuses_first : ¬ ∀ (start last : Kernel) (events : List Event),
    start.Fresh → Run (LegalStep Platform.i386) start events last →
      ∀ environment : Environment, environment.Grants Platform.i386 → ∀ size,
        Platform.i386.headerSize + size < Platform.i386.modulus →
          last.DeliversOrRefuses Platform.i386 environment size := by
  intro always
  have fresh := Kernel.fresh_boot fun _ => 0
  obtain ⟨strategy, models⟩ := fresh.models Platform.i386
  have grants : Environment.Grants Platform.i386 ⟨true, 0x1000, 4⟩ := by decide
  have fits : Platform.i386.headerSize + 8 < Platform.i386.modulus := by decide
  have delivers := always _ _ [] fresh (Run.nil _) ⟨true, 0x1000, 4⟩ grants 8 fits
  rcases (models.deliversOrRefuses_iff grants fits).mp delivers with copied | nowhere
  · cases copied
  · exact nowhere ⟨_, [], [], Or.inr ⟨rfl, rfl⟩, listed_nil.mpr rfl, Or.inr ⟨rfl, by decide⟩⟩

end TsoAlloc
