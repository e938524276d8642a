/-
This file compares the library of `tso_lib.c` with the kernel. A client notes the
addresses that `tso_alloc` returns and strikes those that `tso_free` reports as freed. But
`tso_free` maps the answer of the kernel the wrong way round: it returns -1 when the kernel
has freed the block, and 0 when the kernel reports that it has not. So the client's notes
match the list of the kernel exactly as long as no live address is freed.
-/

import Mathlib.Data.Finset.Dedup
import Mathlib.Data.Finset.Erase
import Mathlib.Data.Finset.Insert
import TsoAlloc.Ledger

namespace TsoAlloc

open Transition

/-! ### The library -/

/-- `syscall` of the C library: the answer of the kernel, with -1 for an error number. -/
def syscall (ret : Int) : Int := if ret < 0 then -1 else ret

section

variable (platform : Platform)

/-- `tso_alloc`: `address` is `NULL` unless the kernel writes it. -/
def tsoAlloc (fuel : Nat) (environment : Environment) (size : Nat) (kernel : Kernel) :
    Except Trap (Nat × Kernel) := do
  let outcome ← invoke platform fuel kernel (.alloc environment size)
  let address := outcome.delivered.getD 0
  .ok (address, outcome.kernel)

/-- `tso_free` -/
def tsoFree (fuel : Nat) (address : Nat) (kernel : Kernel) : Except Trap (Int × Kernel) := do
  let outcome ← invoke platform fuel kernel (.free address)
  let res := syscall outcome.ret
  .ok (if res ≠ 0 then 0 else -1, outcome.kernel)

end

/-! ### The client -/

/-- A client with its notes. -/
structure Client where
  kernel : Kernel
  ledger : Finset Nat

/-- A call of the library with its result, or a switch by any program. -/
inductive ClientEvent where
  | tsoAlloc (environment : Environment) (size address : Nat)
  | tsoFree (address : Nat) (res : Int)
  | switchStrategy (strategy : AllocationStrategy)
deriving DecidableEq, Repr

/-- An address was returned. -/
def ClientEvent.Succeeds : ClientEvent → Prop
  | .tsoAlloc _ _ address => address ≠ 0
  | .tsoFree _ _ => False
  | .switchStrategy _ => False

/-- What the client notes: an address that `tso_alloc` returns is added, and one is removed when
`tso_free` returns 0. -/
def note (ledger : Finset Nat) : ClientEvent → Finset Nat
  | .tsoAlloc _ _ address => if address ≠ 0 then insert address ledger else ledger
  | .tsoFree address res => if res = 0 then ledger.erase address else ledger
  | .switchStrategy _ => ledger

section

variable (platform : Platform)

/-- A step of a client. The request does not wrap and is served by `kmalloc` and `vm_mmap`; the
variable of `tso_alloc` lies on the stack, so that `copy_to_user` copies the address; and there is
a mapping when something is freed. -/
def Client.Step (before : Client) (event : ClientEvent) (after : Client) : Prop :=
  after.ledger = note before.ledger event ∧
    match event with
    | .tsoAlloc environment size address =>
      (Call.alloc environment size).Legal platform before.kernel ∧ environment.copyToUser = 0 ∧
        ∃ fuel, tsoAlloc platform fuel environment size before.kernel = .ok (address, after.kernel)
    | .tsoFree address res =>
      (Call.free address).Legal platform before.kernel ∧
        ∃ fuel, tsoFree platform fuel address before.kernel = .ok (res, after.kernel)
    | .switchStrategy strategy =>
      after.kernel = (sysTsoMmSwitchStrategy strategy.value before.kernel).kernel

/-- The addresses of the payloads of regions. -/
def payloads (regions : List Region) : Finset Nat :=
  (regions.map (Region.payload platform)).toFinset

/-- The region list of the kernel. -/
def Client.Lists (client : Client) (regions : List Region) : Prop :=
  ∃ mm, client.kernel.currentMm = some mm ∧
    Listed platform client.kernel.memory mm.firstRegion regions

/-- The notes are the addresses of the payloads in the region list. -/
def Client.Agrees (client : Client) : Prop :=
  ∃ regions, client.Lists platform regions ∧ client.ledger = payloads platform regions

/-- The address is that of a payload in the region list. -/
def Client.Live (client : Client) (address : Nat) : Prop :=
  ∃ regions, client.Lists platform regions ∧ address ∈ payloads platform regions

/-- After every call of a run from the first success of `tso_alloc` on, the notes agree. -/
def Client.AgreesThroughout (start : Client) (events : List ClientEvent) (last : Client) : Prop :=
  ∀ front back middle, events = front ++ back → Run (Client.Step platform) start front middle →
    Run (Client.Step platform) middle back last → (∃ event ∈ front, event.Succeeds) →
      middle.Agrees platform

/-- No call of `tso_free` in a run is given an address that is live at that moment. -/
def Client.NeverFreesLive (start : Client) (events : List ClientEvent) (last : Client) : Prop :=
  ∀ front address res back middle, events = front ++ .tsoFree address res :: back →
    Run (Client.Step platform) start front middle →
      Run (Client.Step platform) middle (.tsoFree address res :: back) last →
        ¬ middle.Live platform address

end

variable {platform : Platform}

/-! ### Steps -/

theorem payloads_release (heap : Heap platform) (addr : Nat) :
    payloads platform (heap.release addr).regions =
      (payloads platform heap.regions).erase addr := by
  ext other
  simp only [payloads, Heap.release, List.mem_toFinset, List.mem_map, List.mem_filter,
    Finset.mem_erase]
  constructor
  · rintro ⟨region, ⟨member, kept⟩, rfl⟩
    exact ⟨of_decide_eq_true kept, region, member, rfl⟩
  · rintro ⟨different, region, member, rfl⟩
    exact ⟨region, ⟨member, decide_eq_true different⟩, rfl⟩

/-- Placing a region adds its payload. -/
theorem payloads_place (heap : Heap platform) {size : Nat} {room : Extents.Room Region}
    (admits : heap.Admits (platform.headerSize + size) room) :
    payloads platform (heap.place size room admits).regions =
      insert (room.base + platform.headerSize) (payloads platform heap.regions) := by
  have placed {region : Region} : region ∈ (heap.place size room admits).regions ↔
      region = ⟨room.base, size⟩ ∨ region ∈ heap.regions := heap.toLayout.mem_place admits
  ext other
  simp only [payloads, List.mem_toFinset, List.mem_map, Finset.mem_insert]
  constructor
  · rintro ⟨region, member, rfl⟩
    rcases placed.mp member with rfl | member
    · exact Or.inl rfl
    · exact Or.inr ⟨region, member, rfl⟩
  · rintro (rfl | ⟨region, member, rfl⟩)
    · exact ⟨_, placed.mpr (Or.inl rfl), rfl⟩
    · exact ⟨region, placed.mpr (Or.inr member), rfl⟩

theorem Client.Lists.eq {client : Client} {task : TaskState platform}
    (models : client.kernel.Models task) {regions : List Region}
    (lists : client.Lists platform regions) : task.regions = regions := by
  obtain ⟨mm, mapped, listed⟩ := lists
  obtain ⟨heap, same, represents⟩ := models.represents mapped
  exact same.trans (represents.listed.unique listed)

theorem Client.lists_of_heap {client : Client} {task : TaskState platform}
    (models : client.kernel.Models task) (mapped : task.heap ≠ none) :
    client.Lists platform task.regions := by
  obtain ⟨strategy, _ | heap⟩ := task
  · exact absurd rfl mapped
  · obtain ⟨mm, found, represents⟩ := models.2
    exact ⟨mm, found, represents.listed⟩

theorem tsoAlloc_eq_ok {fuel size address : Nat} {environment : Environment}
    {kernel after : Kernel}
    (returned : tsoAlloc platform fuel environment size kernel = .ok (address, after)) :
    ∃ outcome, invoke platform fuel kernel (.alloc environment size) = .ok outcome ∧
      outcome.delivered.getD 0 = address ∧ outcome.kernel = after := by
  unfold tsoAlloc at returned
  cases called : invoke platform fuel kernel (.alloc environment size) with
  | error trap =>
    rw [called] at returned
    cases returned
  | ok outcome =>
    rw [called] at returned
    obtain ⟨same, kernels⟩ := Prod.mk.inj (Except.ok.inj returned)
    exact ⟨outcome, rfl, same, kernels⟩

theorem tsoFree_eq_ok {fuel address : Nat} {res : Int} {kernel after : Kernel}
    (returned : tsoFree platform fuel address kernel = .ok (res, after)) :
    ∃ outcome, invoke platform fuel kernel (.free address) = .ok outcome ∧
      (if syscall outcome.ret ≠ 0 then 0 else -1) = res ∧ outcome.kernel = after := by
  unfold tsoFree at returned
  cases called : invoke platform fuel kernel (.free address) with
  | error trap =>
    rw [called] at returned
    cases returned
  | ok outcome =>
    rw [called] at returned
    obtain ⟨same, kernels⟩ := Prod.mk.inj (Except.ok.inj returned)
    exact ⟨outcome, rfl, same, kernels⟩

/-- How an event changes the addresses of the live payloads. -/
def relist (live : Finset Nat) : ClientEvent → Finset Nat
  | .tsoAlloc _ _ address => if address ≠ 0 then insert address live else live
  | .tsoFree address _ => live.erase address
  | .switchStrategy _ => live

/-- What the library returns when a call takes the task from one state to the next. -/
structure ClientEvent.Reports (event : ClientEvent) (task next : TaskState platform) : Prop where
  payloads : payloads platform next.regions = relist (payloads platform task.regions) event
  mapped : event.Succeeds ∨ task.heap ≠ none → next.heap ≠ none
  freed : ∀ address res, event = .tsoFree address res →
    address ∈ TsoAlloc.payloads platform task.regions → res = -1

/-- `tso_alloc` returns the address of the block that it adds, or `NULL`. -/
theorem TaskState.Step.reports_alloc {task next : TaskState platform} {environment : Environment}
    {size : Nat} {answer : Answer} (copied : environment.copyToUser = 0)
    (step : task.Step ⟨.alloc environment size, answer⟩ next) :
    (ClientEvent.tsoAlloc environment size (answer.delivered.getD 0)).Reports task next := by
  cases step with
  | alloc strategy heap environment size grants =>
    refine ⟨?_, fun _ => Option.some_ne_none _, fun _ _ other => nomatch other⟩
    rw [← TaskState.regions_getD strategy heap grants]
    unfold TaskState.regions relist
    cases chosen : (heap.getD grants.heap).choose strategy (platform.headerSize + size) with
    | none =>
      rw [Heap.alloc_of_none chosen]
      rfl
    | some room =>
      rw [Heap.alloc_of_some chosen]
      have valid : room.base + platform.headerSize ≠ 0 := by
        have := platform.headerSize_pos
        omega
      dsimp only
      rw [if_pos copied, Option.getD_some, if_pos valid]
      exact payloads_place _ _

/-- `tso_free` returns -1 when the block was live. -/
theorem TaskState.Step.reports_free {task next : TaskState platform} {address : Nat}
    {answer : Answer} (step : task.Step ⟨.free address, answer⟩ next) :
    (ClientEvent.tsoFree address (if syscall answer.ret ≠ 0 then 0 else -1)).Reports task next := by
  cases step with
  | free strategy heap addr =>
    refine ⟨payloads_release heap address, fun _ => Option.some_ne_none _, ?_⟩
    intro other res same live
    obtain ⟨rfl, rfl⟩ := ClientEvent.tsoFree.inj same
    obtain ⟨region, member, here⟩ := List.mem_map.mp (List.mem_toFinset.mp live)
    have has : heap.Has address := ⟨region, member, here⟩
    unfold Heap.free
    dsimp only
    rw [if_pos (Or.inl has)]
    rfl

/-- A step of a client is a step of its task, with the results that the library reports. -/
theorem Client.Step.reports {before after : Client} {event : ClientEvent}
    (step : before.Step platform event after) {task : TaskState platform}
    (models : before.kernel.Models task) :
    ∃ next : TaskState platform, after.kernel.Models next ∧ event.Reports task next := by
  obtain ⟨_, step⟩ := step
  cases event with
  | tsoAlloc environment size address =>
    obtain ⟨legal, copied, fuel, returned⟩ := step
    obtain ⟨outcome, called, rfl, same⟩ := tsoAlloc_eq_ok returned
    have here : LegalStep platform before.kernel ⟨.alloc environment size, outcome.answer⟩
        after.kernel := ⟨legal, fuel, outcome, called, rfl, same⟩
    obtain ⟨next, taskStep, refined, _⟩ := step_refines models here
    exact ⟨next, refined, taskStep.reports_alloc copied⟩
  | tsoFree address res =>
    obtain ⟨legal, fuel, returned⟩ := step
    obtain ⟨outcome, called, rfl, same⟩ := tsoFree_eq_ok returned
    have here : LegalStep platform before.kernel ⟨.free address, outcome.answer⟩ after.kernel :=
      ⟨legal, fuel, outcome, called, rfl, same⟩
    obtain ⟨next, taskStep, refined, _⟩ := step_refines models here
    exact ⟨next, refined, taskStep.reports_free⟩
  | switchStrategy strategy =>
    refine ⟨⟨strategy, task.heap⟩, ?_, rfl, ?_, fun _ _ other => nomatch other⟩
    · rw [step]
      exact ⟨rfl, models.2.congr rfl rfl⟩
    · rintro (succeeds | mapped)
      · exact succeeds.elim
      · exact mapped

/-- Unless it frees a live address, an event changes the notes as it changes the live addresses. -/
theorem note_eq_relist {live : Finset Nat} {event : ClientEvent}
    (spared : ∀ address res, event = .tsoFree address res → address ∉ live) :
    note live event = relist live event := by
  cases event with
  | tsoAlloc environment size address => rfl
  | tsoFree address res =>
    have same : live.erase address = live := Finset.erase_eq_of_notMem (spared address res rfl)
    show (if res = 0 then live.erase address else live) = live.erase address
    rw [same, ite_self]
  | switchStrategy strategy => rfl

/-! ### Runs -/

theorem Client.models_of_run {start last : Client} {events : List ClientEvent}
    {task : TaskState platform} (models : start.kernel.Models task)
    (run : Run (Client.Step platform) start events last) :
    ∃ task : TaskState platform, last.kernel.Models task := by
  have kept : ∀ before event after, (∃ task : TaskState platform, before.kernel.Models task) →
      Client.Step platform before event after →
        ∃ task : TaskState platform, after.kernel.Models task := by
    rintro before event after ⟨task, models⟩ step
    obtain ⟨next, refined, _⟩ := step.reports models
    exact ⟨next, refined⟩
  have started : ∃ task : TaskState platform, start.kernel.Models task := ⟨task, models⟩
  exact run.invariant started kept

/-- From the first success on there is a mapping. -/
theorem Client.mapped_of_succeeds {start last : Client} {events : List ClientEvent}
    {task : TaskState platform} (models : start.kernel.Models task)
    (run : Run (Client.Step platform) start events last)
    (succeeded : ∃ event ∈ events, event.Succeeds) :
    ∃ task : TaskState platform, last.kernel.Models task ∧ task.heap ≠ none := by
  have kept : ∀ before event after,
      (∃ task : TaskState platform, before.kernel.Models task ∧ task.heap ≠ none) →
        Client.Step platform before event after →
          ∃ task : TaskState platform, after.kernel.Models task ∧ task.heap ≠ none := by
    rintro before event after ⟨task, models, mapped⟩ step
    obtain ⟨next, refined, reports⟩ := step.reports models
    exact ⟨next, refined, reports.mapped (Or.inr mapped)⟩
  obtain ⟨event, member, succeeds⟩ := succeeded
  obtain ⟨front, back, rfl⟩ := List.append_of_mem member
  obtain ⟨before, walked, rest⟩ := run_append.mp run
  obtain ⟨after, step, remaining⟩ := run_cons.mp rest
  obtain ⟨here, hereModels⟩ := Client.models_of_run models walked
  obtain ⟨next, refined, reports⟩ := step.reports hereModels
  have mapped : ∃ task : TaskState platform, after.kernel.Models task ∧ task.heap ≠ none :=
    ⟨next, refined, reports.mapped (Or.inl succeeds)⟩
  exact remaining.invariant mapped kept

/-- Before the first success no address is live. -/
theorem Client.payloads_of_not_succeeds {start last : Client} {events : List ClientEvent}
    {task : TaskState platform} (models : start.kernel.Models task)
    (empty : payloads platform task.regions = ∅)
    (run : Run (Client.Step platform) start events last)
    (failed : ¬ ∃ event ∈ events, event.Succeeds) :
    ∃ task : TaskState platform, last.kernel.Models task ∧ payloads platform task.regions = ∅ := by
  refine run.along (fun client => ∃ task : TaskState platform,
    client.kernel.Models task ∧ payloads platform task.regions = ∅) ⟨task, models, empty⟩ ?_
  rintro front event back before after split _ step _ ⟨task, models, empty⟩
  obtain ⟨next, refined, reports⟩ := step.reports models
  refine ⟨next, refined, ?_⟩
  rw [reports.payloads, empty]
  have member : event ∈ events := by
    rw [split]
    exact List.mem_append_cons_self
  cases event with
  | tsoAlloc environment size address =>
    refine if_neg fun valid => failed ⟨_, member, valid⟩
  | tsoFree address res => exact Finset.erase_eq_of_notMem (Finset.notMem_empty address)
  | switchStrategy strategy => rfl

/-- While no live address is freed, the notes are the live addresses. -/
theorem Client.NeverFreesLive.ledger_eq {start last middle : Client}
    {events front back : List ClientEvent} {task : TaskState platform}
    (never : start.NeverFreesLive platform events last) (models : start.kernel.Models task)
    (noted : start.ledger = payloads platform task.regions) (split : events = front ++ back)
    (walked : Run (Client.Step platform) start front middle)
    (rest : Run (Client.Step platform) middle back last) :
    ∃ task : TaskState platform, middle.kernel.Models task ∧
      middle.ledger = payloads platform task.regions := by
  refine walked.along (fun client => ∃ task : TaskState platform, client.kernel.Models task ∧
    client.ledger = payloads platform task.regions) ⟨task, models, noted⟩ ?_
  rintro left event right before after here reached step remaining ⟨task, models, noted⟩
  obtain ⟨next, refined, reports⟩ := step.reports models
  refine ⟨next, refined, ?_⟩
  rw [step.1, noted, reports.payloads]
  refine note_eq_relist ?_
  rintro address res rfl live
  have whole : events = left ++ .tsoFree address res :: (right ++ back) := by
    rw [split, here, List.append_assoc, List.cons_append]
  have mapped : task.heap ≠ none := by
    intro unmapped
    unfold TaskState.regions at live
    rw [unmapped] at live
    exact absurd live (Finset.notMem_empty address)
  exact never left address res (right ++ back) before whole reached
    (Run.cons step (run_append.mpr ⟨middle, remaining, rest⟩))
    ⟨task.regions, Client.lists_of_heap models mapped, live⟩

/-- An address that `tso_free` reports as freed was not live. -/
theorem Client.Step.not_live {before after : Client} {address : Nat} {task : TaskState platform}
    (models : before.kernel.Models task)
    (step : before.Step platform (.tsoFree address 0) after) : ¬ before.Live platform address := by
  rintro ⟨regions, lists, member⟩
  obtain rfl := lists.eq models
  obtain ⟨next, _, reports⟩ := step.reports models
  cases reports.freed address 0 rfl member

/-- After a live address was freed, the notes that agreed do so no longer. -/
theorem Client.Step.not_agrees {before after : Client} {address : Nat} {res : Int}
    {task : TaskState platform} (models : before.kernel.Models task)
    (step : before.Step platform (.tsoFree address res) after)
    (live : before.Live platform address) (agrees : before.Agrees platform) :
    ¬ after.Agrees platform := by
  rintro ⟨later, laterLists, laterNoted⟩
  obtain ⟨regions, lists, member⟩ := live
  obtain ⟨others, otherLists, noted⟩ := agrees
  obtain rfl := lists.eq models
  obtain rfl := otherLists.eq models
  obtain ⟨next, refined, reports⟩ := step.reports models
  obtain rfl := laterLists.eq refined
  have kept : after.ledger = before.ledger := by
    rw [step.1, reports.freed address res rfl member]
    rfl
  rw [kept, noted, reports.payloads] at laterNoted
  rw [laterNoted] at member
  exact Finset.notMem_erase address _ member

/-- In every run of a client from its first call on, the notes agree with the list of the kernel
after every call from the first success on, if and only if no live address is freed. -/
theorem agreesThroughout_iff_of_run {start : Client} (fresh : start.kernel.Fresh)
    (nothing : start.ledger = ∅) (events : List ClientEvent) (last : Client) :
    start.AgreesThroughout platform events last ↔ start.NeverFreesLive platform events last := by
  obtain ⟨strategy, models⟩ := fresh.models platform
  constructor
  · intro agrees front address res back middle split walked rest live
    obtain ⟨after, step, remaining⟩ := run_cons.mp rest
    obtain ⟨task, here⟩ := Client.models_of_run models walked
    have succeeded : ∃ event ∈ front, event.Succeeds := by
      by_contra failed
      obtain ⟨other, otherModels, empty⟩ :=
        Client.payloads_of_not_succeeds models rfl walked failed
      obtain ⟨regions, lists, member⟩ := live
      rw [← lists.eq otherModels, empty] at member
      exact absurd member (Finset.notMem_empty address)
    have later : ∃ event ∈ front ++ [.tsoFree address res], event.Succeeds := by
      obtain ⟨event, member, succeeds⟩ := succeeded
      exact ⟨event, List.mem_append_left _ member, succeeds⟩
    have longer : events = (front ++ [.tsoFree address res]) ++ back := by
      rw [split, List.append_assoc, List.singleton_append]
    exact step.not_agrees here live (agrees front _ middle split walked rest succeeded)
      (agrees _ back after longer (run_append.mpr ⟨middle, walked, run_singleton.mpr step⟩)
        remaining later)
  · intro never front back middle split walked rest succeeded
    obtain ⟨task, here, noted⟩ := never.ledger_eq models nothing split walked rest
    obtain ⟨other, otherModels, mapped⟩ := Client.mapped_of_succeeds models walked succeeded
    have lists := Client.lists_of_heap otherModels mapped
    refine ⟨other.regions, lists, ?_⟩
    rw [noted, lists.eq here]

/-- A request that the kernel grants or refuses, made through the library. -/
theorem Client.Step.of_alloc {kernel after : Kernel} {environment : Environment} {size : Nat}
    {answer : Answer} (copied : environment.copyToUser = 0)
    (step : LegalStep platform kernel ⟨.alloc environment size, answer⟩ after)
    (ledger : Finset Nat) :
    Client.Step platform ⟨kernel, ledger⟩
      (.tsoAlloc environment size (answer.delivered.getD 0))
      ⟨after, note ledger (.tsoAlloc environment size (answer.delivered.getD 0))⟩ := by
  obtain ⟨legal, fuel, outcome, returned, rfl, rfl⟩ := step
  refine ⟨rfl, legal, copied, fuel, ?_⟩
  unfold tsoAlloc
  rw [returned]
  rfl

theorem Client.Step.of_free {kernel after : Kernel} {address : Nat} {answer : Answer}
    (step : LegalStep platform kernel ⟨.free address, answer⟩ after) (ledger : Finset Nat) :
    Client.Step platform ⟨kernel, ledger⟩
      (.tsoFree address (if syscall answer.ret ≠ 0 then 0 else -1))
      ⟨after, note ledger (.tsoFree address (if syscall answer.ret ≠ 0 then 0 else -1))⟩ := by
  obtain ⟨legal, fuel, outcome, returned, rfl, rfl⟩ := step
  refine ⟨rfl, legal, fuel, ?_⟩
  unfold tsoFree
  rw [returned]
  rfl

/-- A client that has nothing yet. -/
def Client.boot : Client where
  kernel := Kernel.boot fun _ => 0
  ledger := ∅

/-- Two blocks are allocated, and a free of an address that is not live is reported as a
success. -/
theorem agreesThroughout_sample : ∃ last,
    Run (Client.Step Platform.i386) Client.boot
        [.tsoAlloc .secondPage 40 0x1008, .tsoAlloc .secondPage 60 0x1038, .tsoFree 0x2000 0]
        last ∧
      Client.boot.AgreesThroughout Platform.i386
        [.tsoAlloc .secondPage 40 0x1008, .tsoAlloc .secondPage 60 0x1038, .tsoFree 0x2000 0]
        last := by
  obtain ⟨events, after, run, rfl⟩ := exists_run Platform.i386 9 (Kernel.boot fun _ => 0)
    [.alloc .secondPage 40, .alloc .secondPage 60, .free 0x2000] (fun state => state.1)
    (show _ = some [⟨.alloc .secondPage 40, ⟨0, some 0x1008⟩⟩,
      ⟨.alloc .secondPage 60, ⟨0, some 0x1038⟩⟩, ⟨.free 0x2000, ⟨-1, none⟩⟩] by decide +kernel)
  obtain ⟨middle, first, rest⟩ := run_cons.mp run
  obtain ⟨later, second, rest⟩ := run_cons.mp rest
  have third := run_singleton.mp rest
  refine ⟨_, Run.cons (Client.Step.of_alloc rfl first ∅)
    (Run.cons (Client.Step.of_alloc rfl second _)
      (run_singleton.mpr (Client.Step.of_free third _))), ?_⟩
  refine (agreesThroughout_iff_of_run (Kernel.fresh_boot _) rfl _ _).mpr ?_
  intro front address res back before split walked rest
  have member : ClientEvent.tsoFree address res ∈ [ClientEvent.tsoAlloc .secondPage 40 0x1008,
      .tsoAlloc .secondPage 60 0x1038, .tsoFree 0x2000 0] := by
    rw [split]
    exact List.mem_append_cons_self
  obtain ⟨rfl, rfl⟩ : address = 0x2000 ∧ res = 0 := by simpa using member
  obtain ⟨strategy, models⟩ := (Kernel.fresh_boot fun _ => 0).models Platform.i386
  obtain ⟨task, here⟩ := Client.models_of_run models walked
  obtain ⟨_, step, _⟩ := run_cons.mp rest
  exact step.not_live here

/-- A block is allocated and freed. -/
theorem not_agreesThroughout_free : ¬ ∀ events last,
    Run (Client.Step Platform.i386) Client.boot events last →
      Client.boot.AgreesThroughout Platform.i386 events last := by
  intro claimed
  obtain ⟨events, after, run, rfl⟩ := exists_run Platform.i386 9 (Kernel.boot fun _ => 0)
    [.alloc .secondPage 8, .free 0x1008] (fun state => state.1)
    (show _ = some [⟨.alloc .secondPage 8, ⟨0, some 0x1008⟩⟩, ⟨.free 0x1008, ⟨0, none⟩⟩]
      by decide +kernel)
  obtain ⟨middle, first, rest⟩ := run_cons.mp run
  have alloc : Client.Step Platform.i386 Client.boot (.tsoAlloc .secondPage 8 0x1008)
      ⟨middle, {0x1008}⟩ := Client.Step.of_alloc rfl first ∅
  have free : Client.Step Platform.i386 ⟨middle, {0x1008}⟩ (.tsoFree 0x1008 (-1))
      ⟨after, {0x1008}⟩ := Client.Step.of_free (run_singleton.mp rest) {0x1008}
  have whole := Run.cons alloc (run_singleton.mpr free)
  have succeeded : ∃ event ∈ [ClientEvent.tsoAlloc .secondPage 8 0x1008], event.Succeeds :=
    ⟨_, List.mem_singleton_self _, Nat.succ_ne_zero _⟩
  have both : ∃ event ∈ [ClientEvent.tsoAlloc .secondPage 8 0x1008, .tsoFree 0x1008 (-1)],
      event.Succeeds := ⟨_, List.mem_cons_self .., Nat.succ_ne_zero _⟩
  have agrees := claimed _ _ whole [_] [_] _ rfl (run_singleton.mpr alloc)
    (run_singleton.mpr free) succeeded
  have later := claimed _ _ whole [_, _] [] _ rfl whole (Run.nil _) both
  obtain ⟨strategy, models⟩ := (Kernel.fresh_boot fun _ => 0).models Platform.i386
  obtain ⟨task, here⟩ := Client.models_of_run models (run_singleton.mpr alloc)
  obtain ⟨regions, lists, noted⟩ := agrees
  have live : Client.Live Platform.i386 ⟨middle, {0x1008}⟩ 0x1008 :=
    ⟨regions, lists, noted ▸ Finset.mem_singleton_self _⟩
  exact free.not_agrees here live ⟨regions, lists, noted⟩ later

end TsoAlloc
