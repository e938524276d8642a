/-
This file lets a task use what it has been handed. The headers lie in the memory that is handed
out: a session interleaves the calls of a task with writes of the task itself, each to one byte
of a block it holds or to a byte of no region. An allocation writes once more, at its end:
`copy_to_user` stores the address of the new block in the word at `address`, wherever the caller
has it. Throughout, the headers that a walk from `first_region` visits are the blocks handed out
and not yet freed; the calls leave the contents of blocks alone, but for the word at `address`,
and the writes leave the headers alone.
-/

import TsoAlloc.Delivery

namespace TsoAlloc

open Transition

/-- A task with its books. -/
structure Session where
  kernel : Kernel
  ledger : List Block

/-- What happens in a session: a call, with the argument `address` that an allocation has, or a
write of the task to one byte of its memory. -/
inductive Session.Action where
  | call (event : Event) (address : Nat)
  | write (byte : Nat) (value : UInt8)

section

variable (platform : Platform)

/-- `copy_to_user(address, &res, sizeof(void*))`, when it succeeds. A call that delivers nothing
does not come to it. -/
def copyToUser (memory : ByteMemory) (address : Nat) (delivered : Option Nat) : ByteMemory :=
  match delivered with
  | none => memory
  | some res => memory.store platform.wordBytes address res

/-- The byte is in the payload of a block of the ledger, or in no region of one. -/
def MayWrite (ledger : List Block) (byte : Nat) : Prop :=
  (∃ block ∈ ledger, block.address ≤ byte ∧ byte < block.address + block.size) ∨
    ∀ block ∈ ledger, byte + platform.headerSize < block.address ∨
      block.address + block.size ≤ byte

instance (ledger : List Block) (byte : Nat) : Decidable (MayWrite platform ledger byte) :=
  inferInstanceAs (Decidable (_ ∨ _))

namespace Session

/-- The session after a call that left the kernel in a state. -/
def afterCall (before : Session) (event : Event) (address : Nat) (returned : Kernel) : Session where
  kernel := { returned with
    memory := copyToUser platform returned.memory address event.answer.delivered }
  ledger := record before.ledger event

/-- The session after a write. -/
def afterWrite (before : Session) (byte : Nat) (value : UInt8) : Session where
  kernel := { before.kernel with
    memory := Function.update before.kernel.memory byte value }
  ledger := before.ledger

/-- A step of a session: a legal call returns, or the task writes. -/
def Step (before : Session) (action : Action) (after : Session) : Prop :=
  match action with
  | .call event address => ∃ returned, LegalStep platform before.kernel event returned ∧
      after = before.afterCall platform event address returned
  | .write byte value => after = before.afterWrite byte value

/-- What is written by the task, or for it in the word at `address`, are bytes of blocks that are
live then, or bytes of no live region. -/
def Action.Spares (action : Action) (before after : Session) : Prop :=
  match action with
  | .call event address => event.answer.delivered ≠ none →
      ∀ offset < platform.wordBytes, MayWrite platform after.ledger (address + offset)
  | .write byte _ => MayWrite platform before.ledger byte

instance (action : Action) (before after : Session) :
    Decidable (action.Spares platform before after) :=
  match action with
  | .call _ _ => inferInstanceAs (Decidable (_ → _))
  | .write byte _ => inferInstanceAs (Decidable (MayWrite platform before.ledger byte))

/-- A step that spares the headers of the live regions. -/
def SparingStep (before : Session) (action : Action) (after : Session) : Prop :=
  before.Step platform action after ∧ action.Spares platform before after

/-- A step that spares the headers and in which no allocation finds a gap while `copy_to_user`
fails. -/
def DeliveringStep (before : Session) (action : Action) (after : Session) : Prop :=
  before.SparingStep platform action after ∧
    ∀ event address, action = .call event address →
      ¬ event.call.LosesBlock platform before.kernel

end Session

end

/-- A session in which the state models a task whose regions are the blocks of the ledger. -/
structure Session.Tracks {platform : Platform} (session : Session) (task : TaskState platform) :
    Prop where
  models : session.kernel.Models task
  ledger : (task.regions.map (Region.block platform)).Perm session.ledger

variable {platform : Platform}

@[simp]
theorem Session.currentMm_afterCall (before : Session) (event : Event) (address : Nat)
    (returned : Kernel) :
    (before.afterCall platform event address returned).kernel.currentMm = returned.currentMm := rfl

/-- A computed call is a step. -/
theorem Session.step_of_invoke {before : Session} {event : Event} {address fuel : Nat}
    {outcome : Outcome} (legal : event.call.Legal platform before.kernel)
    (returned : invoke platform fuel before.kernel event.call = .ok outcome)
    (answered : outcome.answer = event.answer) :
    before.Step platform (.call event address)
      (before.afterCall platform event address outcome.kernel) :=
  ⟨outcome.kernel, ⟨legal, fuel, outcome, returned, answered, rfl⟩, rfl⟩

/-! ### What the task may write -/

/-- A byte the task may write lies in no header. -/
theorem TaskState.outside_of_mayWrite {task : TaskState platform} {ledger : List Block}
    (tracks : (task.regions.map (Region.block platform)).Perm ledger) {byte : Nat}
    (allowed : MayWrite platform ledger byte) {region : Region} (member : region ∈ task.regions) :
    byte < region.addr ∨ region.payload platform ≤ byte := by
  have held : region.block platform ∈ ledger := tracks.subset (List.mem_map_of_mem member)
  rcases allowed with ⟨block, blockMember, low, high⟩ | nowhere
  · obtain ⟨holder, holderMember, rfl⟩ := List.mem_map.mp (tracks.symm.subset blockMember)
    have top : byte < holder.top platform := by
      unfold Region.block Region.payload at high
      unfold Region.top
      dsimp only at high
      omega
    obtain ⟨strategy, _ | heap⟩ := task
    · cases member
    · exact heap.payload_outside holderMember member low top
  · rcases nowhere _ held with before | behind
    · left
      unfold Region.block Region.payload at before
      dsimp only at before
      omega
    · right
      unfold Region.block at behind
      dsimp only at behind
      omega

/-- What changes only in bytes that the task may write leaves the headers. -/
theorem TaskState.sameHeader_of_mayWrite {task : TaskState platform} {ledger : List Block}
    (tracks : (task.regions.map (Region.block platform)).Perm ledger)
    {memory changed : ByteMemory}
    (allowed : ∀ byte, changed byte ≠ memory byte → MayWrite platform ledger byte) :
    ∀ region ∈ task.regions, SameHeader platform memory changed region.addr := by
  intro region member byte low high
  by_contra different
  have outside := task.outside_of_mayWrite tracks (allowed byte different) member
  unfold Region.payload at outside
  omega

/-- A write to one byte changes a byte that the task may write. -/
theorem MayWrite.of_update {ledger : List Block} {memory : ByteMemory} {byte : Nat} {value : UInt8}
    (allowed : MayWrite platform ledger byte) (other : Nat)
    (changed : Function.update memory byte value other ≠ memory other) :
    MayWrite platform ledger other := by
  obtain rfl : other = byte := by
    by_contra different
    exact changed (Function.update_of_ne different _ _)
  exact allowed

/-- `copy_to_user` changes no byte outside its word. -/
theorem copyToUser_of_notInWord {memory : ByteMemory} {address : Nat} {delivered : Option Nat}
    {byte : Nat}
    (outside : delivered ≠ none → ¬ ByteMemory.InWord platform.wordBytes address byte) :
    copyToUser platform memory address delivered byte = memory byte := by
  cases delivered with
  | none => rfl
  | some res => exact ByteMemory.store_of_notInWord (outside (Option.some_ne_none res))

/-! ### Steps -/

namespace Session.Tracks

variable {session : Session} {task : TaskState platform}

theorem accounts (tracks : session.Tracks task) :
    session.kernel.Accounts platform session.ledger :=
  tracks.models.accounts_iff.mpr tracks.ledger

/-- A call that loses no block leaves the state modelling a task, with exact books, before
`copy_to_user`. -/
theorem call (tracks : session.Tracks task) {event : Event} {returned : Kernel}
    (legalStep : LegalStep platform session.kernel event returned)
    (delivers : ¬ event.call.LosesBlock platform session.kernel) :
    ∃ next : TaskState platform, returned.Models next ∧
      (next.regions.map (Region.block platform)).Perm (record session.ledger event) ∧
        HeadersOnly platform (task.regions ++ next.regions) session.kernel.memory
          returned.memory := by
  obtain ⟨next, _, refined, frame⟩ := step_refines tracks.models legalStep
  have exactly := (tracks.models.accounts_step_iff tracks.accounts legalStep).mpr delivers
  exact ⟨next, refined, refined.accounts_iff.mp exactly, frame⟩

/-- A step of a session keeps the ledger exact. -/
theorem step (tracks : session.Tracks task) {action : Action} {after : Session}
    (step : session.DeliveringStep platform action after) :
    ∃ next : TaskState platform, after.Tracks next := by
  obtain ⟨⟨happens, spares⟩, delivers⟩ := step
  cases action with
  | call event address =>
    obtain ⟨returned, legalStep, rfl⟩ := happens
    obtain ⟨next, refined, ledger, _⟩ := tracks.call legalStep (delivers event address rfl)
    refine ⟨next, refined.transport (next.sameHeader_of_mayWrite ledger ?_), ledger⟩
    intro byte changed
    by_contra forbidden
    refine changed (copyToUser_of_notInWord fun delivered inside => forbidden ?_)
    obtain ⟨low, high⟩ := inside
    have allowed := spares delivered (byte - address) (by omega)
    rwa [Nat.add_sub_cancel' low] at allowed
  | write byte value =>
    obtain rfl := happens
    refine ⟨task, tracks.models.transport ?_, tracks.ledger⟩
    exact task.sameHeader_of_mayWrite tracks.ledger (MayWrite.of_update spares)

end Session.Tracks

/-- After every session the ledger is exact. -/
theorem tracks_of_session {start after : Session} {actions : List Session.Action}
    (fresh : start.kernel.Fresh) (nothing : start.ledger = [])
    (session : Run (Session.DeliveringStep platform) start actions after) :
    ∃ task : TaskState platform, after.Tracks task := by
  obtain ⟨strategy, models⟩ := fresh.models platform
  have tracks : ∃ task : TaskState platform, start.Tracks task :=
    ⟨_, models, by rw [nothing]; rfl⟩
  have kept : ∀ before action after, (∃ task : TaskState platform, before.Tracks task) →
      Session.DeliveringStep platform before action after →
        ∃ task : TaskState platform, after.Tracks task :=
    fun _ _ _ ⟨_, tracks⟩ step => tracks.step step
  exact session.invariant tracks kept

theorem Region.block_injective : Function.Injective (Region.block platform) := by
  rintro ⟨addr, size⟩ ⟨other, otherSize⟩ same
  obtain ⟨payload, sameSize⟩ := Block.mk.inj same
  obtain rfl : addr = other := Nat.add_right_cancel payload
  obtain rfl : size = otherSize := sameSize
  rfl

/-! ### What a session keeps -/

namespace Session.Tracks

variable {session : Session} {task : TaskState platform}

theorem nodup (tracks : session.Tracks task) : (session.ledger.map Block.address).Nodup := by
  refine (tracks.ledger.map Block.address).nodup_iff.mp ?_
  obtain ⟨strategy, _ | heap⟩ := task
  · exact List.nodup_nil
  · have once : heap.regions.Nodup := List.Nodup.of_map _ heap.nodup_addr
    show ((heap.regions.map (Region.block platform)).map Block.address).Nodup
    rw [List.map_map]
    exact once.map_on fun first firstMember second secondMember =>
      heap.payload_injective firstMember secondMember

/-- A call changes no byte of a block that the task holds before and after it, but for the word at
`address`. -/
theorem contents (tracks : session.Tracks task) {event : Event} {address : Nat} {next : Session}
    (step : session.DeliveringStep platform (.call event address) next) {block : Block}
    (before : block ∈ session.ledger) (after : block ∈ next.ledger) {byte : Nat}
    (low : block.address ≤ byte) (high : byte < block.address + block.size)
    (aside : event.answer.delivered ≠ none →
      ¬ ByteMemory.InWord platform.wordBytes address byte) :
    next.kernel.memory byte = session.kernel.memory byte := by
  obtain ⟨⟨⟨returned, legalStep, rfl⟩, _⟩, delivers⟩ := step
  obtain ⟨nextTask, _, nextLedger, frame⟩ := tracks.call legalStep (delivers event address rfl)
  obtain ⟨region, member, rfl⟩ := List.mem_map.mp (tracks.ledger.symm.subset before)
  obtain ⟨other, otherMember, same⟩ := List.mem_map.mp (nextLedger.symm.subset after)
  obtain rfl := Region.block_injective same
  refine (copyToUser_of_notInWord aside).trans (frame.payload member otherMember low ?_)
  unfold Region.block Region.payload at high
  unfold Region.top
  dsimp only at high
  omega

theorem headers (tracks : session.Tracks task) {byte : Nat} {value : UInt8} {next : Session}
    (step : session.DeliveringStep platform (.write byte value) next) {regions : List Region}
    (lists : session.kernel.Lists platform regions) :
    ∀ region ∈ regions,
      SameHeader platform session.kernel.memory next.kernel.memory region.addr := by
  obtain ⟨⟨rfl, allowed⟩, _⟩ := step
  obtain rfl := tracks.models.lists_iff.mp lists
  exact task.sameHeader_of_mayWrite tracks.ledger (MayWrite.of_update allowed)

end Session.Tracks

/-- After every session the live regions, as the walk from `first_region` visits them, are exactly
the blocks handed out and not yet freed, each once; every further legal call returns, and changes
no byte of a block that is held before and after it, but for the word at `address` when it delivers
one; and every further write leaves every header of the list. -/
theorem ledger_of_session {start after : Session} {actions : List Session.Action}
    (fresh : start.kernel.Fresh) (nothing : start.ledger = [])
    (session : Run (Session.DeliveringStep platform) start actions after) :
    (after.kernel.Accounts platform after.ledger ∧ (after.ledger.map Block.address).Nodup) ∧
      (∀ call : Call, call.Legal platform after.kernel →
        ∃ fuel outcome, invoke platform fuel after.kernel call = .ok outcome) ∧
      (∀ event address next, after.DeliveringStep platform (.call event address) next →
        ∀ block ∈ after.ledger, block ∈ next.ledger →
          ∀ byte, block.address ≤ byte → byte < block.address + block.size →
            (event.answer.delivered ≠ none →
              ¬ ByteMemory.InWord platform.wordBytes address byte) →
              next.kernel.memory byte = after.kernel.memory byte) ∧
      (∀ byte value next, after.DeliveringStep platform (.write byte value) next →
        ∀ regions, after.kernel.Lists platform regions → ∀ region ∈ regions,
          SameHeader platform after.kernel.memory next.kernel.memory region.addr) := by
  obtain ⟨task, tracks⟩ := tracks_of_session fresh nothing session
  refine ⟨⟨tracks.accounts, tracks.nodup⟩, ?_, ?_, ?_⟩
  · intro call legal
    obtain ⟨fuel, outcome, _, returned, _⟩ := invoke_refines tracks.models legal
    exact ⟨fuel, outcome, returned⟩
  · intro event address next step block before held byte low high aside
    exact tracks.contents step before held low high aside
  · intro byte value next step regions lists
    exact tracks.headers step lists

/-! ### Sessions can be computed -/

/-- Makes calls and writes one after another, as long as they spare the headers, deliver what they
find and get the answers given. -/
def Session.execute (platform : Platform) (fuel : Nat) (session : Session) :
    List Session.Action → Option Session
  | [] => some session
  | .call event address :: actions =>
    if event.call.Legal platform session.kernel ∧ event.call.Delivers then
      match invoke platform fuel session.kernel event.call with
      | .error _ => none
      | .ok outcome =>
        let after := session.afterCall platform event address outcome.kernel
        if outcome.answer = event.answer ∧
            (Action.call event address).Spares platform session after then
          after.execute platform fuel actions
        else none
    else none
  | .write byte value :: actions =>
    if MayWrite platform session.ledger byte then
      (session.afterWrite byte value).execute platform fuel actions
    else none

/-- A computed session exists. -/
theorem run_of_session_execute {fuel : Nat} {session after : Session}
    {actions : List Session.Action}
    (executed : session.execute platform fuel actions = some after) :
    Run (Session.DeliveringStep platform) session actions after := by
  induction actions generalizing session with
  | nil =>
    obtain rfl := Option.some.inj executed
    exact Run.nil _
  | cons action actions inductionHypothesis =>
    cases action with
    | call event address =>
      unfold Session.execute at executed
      split at executed
      · rename_i legal
        split at executed
        · cases executed
        · rename_i outcome returned
          dsimp only at executed
          split at executed
          · rename_i answered
            have step := @Session.step_of_invoke platform session event address _ _
              legal.1 returned answered.1
            refine Run.cons ⟨⟨step, answered.2⟩, ?_⟩ (inductionHypothesis executed)
            rintro other _ ⟨⟩
            exact legal.2.not_losesBlock
          · cases executed
      · cases executed
    | write byte value =>
      unfold Session.execute at executed
      split at executed
      · rename_i allowed
        refine Run.cons ⟨⟨rfl, allowed⟩, ?_⟩ (inductionHypothesis executed)
        rintro event address ⟨⟩
      · cases executed

theorem exists_session (platform : Platform) (fuel : Nat) (session : Session)
    (actions : List Session.Action) {Seen : Type} (read : Session → Seen) {seen : Seen}
    (executed : (session.execute platform fuel actions).map read = some seen) :
    ∃ after, Run (Session.DeliveringStep platform) session actions after ∧ read after = seen := by
  obtain ⟨after, here, same⟩ := Option.map_eq_some_iff.mp executed
  exact ⟨after, run_of_session_execute here, same⟩

/-- The address of the second block goes into the first one, and the last byte of the second one is
written, before the first one is freed. -/
theorem ledger_sample : ∃ actions after,
    Run (Session.DeliveringStep Platform.i386) ⟨Kernel.boot fun _ => 0, []⟩ actions after ∧
      after.ledger = [⟨0x1038, 60⟩] ∧ after.kernel.memory.load 4 0x1008 = 0x1038 ∧
        after.kernel.memory 0x1073 = 7 ∧ after.kernel.Accounts Platform.i386 after.ledger := by
  obtain ⟨after, session, seen⟩ := exists_session Platform.i386 9 ⟨Kernel.boot fun _ => 0, []⟩
    [.call ⟨.alloc .secondPage 40, 0, some 0x1008⟩ 0xBF000000,
      .call ⟨.alloc .secondPage 60, 0, some 0x1038⟩ 0x1008, .write 0x1073 7,
      .call ⟨.free 0x1008, 0, none⟩ 0]
    (fun after => (after.ledger, after.kernel.memory.load 4 0x1008, after.kernel.memory 0x1073))
    (show _ = some ([⟨0x1038, 60⟩], 0x1038, 7) by decide +kernel)
  obtain ⟨ledger, rest⟩ := Prod.mk.inj seen
  obtain ⟨word, byte⟩ := Prod.mk.inj rest
  have accounts := (ledger_of_session (Kernel.fresh_boot _) rfl session).1.1
  exact ⟨_, after, session, ledger, word, byte, accounts⟩

/-- The first allocation of a task fails to write the address, and the block is in the list but not
in the ledger. -/
theorem not_accounts_undelivered : ¬ ∀ (start after : Session) (actions : List Session.Action),
    start.kernel.Fresh → start.ledger = [] →
      Run (Session.SparingStep Platform.i386) start actions after →
        after.kernel.Accounts Platform.i386 after.ledger := by
  intro always
  obtain ⟨outcome, returned, seen⟩ := exists_outcome Platform.i386 9 (Kernel.boot fun _ => 0)
    (.alloc ⟨true, 0x1000, 4⟩ 8) (fun outcome => (outcome.answer, outcome.kernel.currentMm))
    (show _ = some (⟨0, none⟩, some ⟨0x1000, 0x1000, 32768, 32752⟩) by decide +kernel)
  obtain ⟨answered, mapped⟩ := Prod.mk.inj seen
  have step : Session.SparingStep Platform.i386 ⟨Kernel.boot fun _ => 0, []⟩
      (.call ⟨.alloc ⟨true, 0x1000, 4⟩ 8, 0, none⟩ 0)
      (Session.afterCall Platform.i386 ⟨Kernel.boot fun _ => 0, []⟩
        ⟨.alloc ⟨true, 0x1000, 4⟩ 8, 0, none⟩ 0 outcome.kernel) :=
    ⟨Session.step_of_invoke (by decide) returned answered, fun delivered => absurd rfl delivered⟩
  obtain ⟨regions, lists, exactly⟩ :=
    always _ _ _ (Kernel.fresh_boot _) rfl (run_singleton.mpr step)
  have nothing : regions = [] := List.map_eq_nil_iff.mp exactly.eq_nil
  rw [Kernel.Lists, Session.currentMm_afterCall, mapped, nothing] at lists
  exact absurd (listed_nil.mp lists) (by decide)

/-- The second allocation of a task stores its address in the first block. -/
theorem not_contents_word : ¬ ∀ (start after : Session) (actions : List Session.Action),
    start.kernel.Fresh → start.ledger = [] →
      Run (Session.DeliveringStep Platform.i386) start actions after →
        ∀ event address next, after.DeliveringStep Platform.i386 (.call event address) next →
          ∀ block ∈ after.ledger, block ∈ next.ledger →
            ∀ byte, block.address ≤ byte → byte < block.address + block.size →
              next.kernel.memory byte = after.kernel.memory byte := by
  intro always
  obtain ⟨after, session, seen⟩ := exists_session Platform.i386 9 ⟨Kernel.boot fun _ => 0, []⟩
    [.call ⟨.alloc .secondPage 8, 0, some 0x1008⟩ 0xBF000000]
    (fun after => (after.ledger, after.kernel.memory 0x1008,
      (after.execute Platform.i386 9 [.call ⟨.alloc .secondPage 8, 0, some 0x1018⟩ 0x1008]).map
        fun next => (next.ledger, next.kernel.memory 0x1008)))
    (show _ = some ([⟨0x1008, 8⟩], (0 : UInt8),
      some ([⟨0x1018, 8⟩, ⟨0x1008, 8⟩], (0x18 : UInt8))) by decide +kernel)
  obtain ⟨ledger, rest⟩ := Prod.mk.inj seen
  obtain ⟨before, executed⟩ := Prod.mk.inj rest
  obtain ⟨next, onward, nextSeen⟩ := exists_session Platform.i386 9 after _ _ executed
  obtain ⟨nextLedger, behind⟩ := Prod.mk.inj nextSeen
  have same := always _ after _ (Kernel.fresh_boot _) rfl session _ _ next
    (run_singleton.mp onward) ⟨0x1008, 8⟩ (by rw [ledger]; decide) (by rw [nextLedger]; decide)
    0x1008 (by decide) (by decide)
  rw [before, behind] at same
  exact absurd same (by decide)

/-- The first allocation of a task stores its address in the header of the new region. -/
theorem not_accounts_header : ¬ ∀ (start after : Session) (actions : List Session.Action),
    start.kernel.Fresh → start.ledger = [] → Run (Session.Step Platform.i386) start actions after →
      (∀ action ∈ actions, ∃ event address, action = .call event address ∧ event.call.Delivers) →
        after.kernel.Accounts Platform.i386 after.ledger := by
  intro always
  obtain ⟨outcome, returned, seen⟩ := exists_outcome Platform.i386 9 (Kernel.boot fun _ => 0)
    (.alloc .secondPage 8) (fun outcome => (outcome.answer, outcome.kernel.currentMm))
    (show _ = some (⟨0, some 0x1008⟩, some ⟨0x1000, 0x1000, 32768, 32752⟩) by decide +kernel)
  obtain ⟨answered, mapped⟩ := Prod.mk.inj seen
  have step : Session.Step Platform.i386 ⟨Kernel.boot fun _ => 0, []⟩
      (.call ⟨.alloc .secondPage 8, 0, some 0x1008⟩ 0x1000)
      (Session.afterCall Platform.i386 ⟨Kernel.boot fun _ => 0, []⟩
        ⟨.alloc .secondPage 8, 0, some 0x1008⟩ 0x1000 outcome.kernel) :=
    Session.step_of_invoke (by decide) returned answered
  obtain ⟨regions, lists, exactly⟩ :=
    always _ _ _ (Kernel.fresh_boot _) rfl (run_singleton.mpr step) fun action member =>
      ⟨_, _, List.mem_singleton.mp member, rfl⟩
  obtain ⟨region, rfl⟩ : ∃ region, regions = [region] :=
    List.length_eq_one_iff.mp ((List.length_map _).symm.trans exactly.length_eq)
  rw [Kernel.Lists, Session.currentMm_afterCall, mapped] at lists
  obtain ⟨here, _, _, tail⟩ := listed_cons.mp lists
  -- The header now links to the payload of its own region.
  have linked :
      nextOf Platform.i386 (outcome.kernel.memory.store 4 0x1000 0x1008) 0x1000 = 0x1008 :=
    nextOf_store (by decide)
  rw [← here] at tail
  exact absurd (linked.symm.trans (listed_nil.mp tail)) (by decide)

/-- Without the condition on `copy_to_user` the walk does not yield the ledger; nor does it when the
word at `address` is in a header; and an allocation changes bytes of a live block that are in the
word at `address`. -/
theorem not_ledger_of_session :
    (¬ ∀ (start after : Session) (actions : List Session.Action),
      start.kernel.Fresh → start.ledger = [] →
        Run (Session.SparingStep Platform.i386) start actions after →
          after.kernel.Accounts Platform.i386 after.ledger) ∧
      (¬ ∀ (start after : Session) (actions : List Session.Action),
        start.kernel.Fresh → start.ledger = [] →
          Run (Session.Step Platform.i386) start actions after →
            (∀ action ∈ actions, ∃ event address, action = .call event address ∧
              event.call.Delivers) → after.kernel.Accounts Platform.i386 after.ledger) ∧
      ¬ ∀ (start after : Session) (actions : List Session.Action),
        start.kernel.Fresh → start.ledger = [] →
          Run (Session.DeliveringStep Platform.i386) start actions after →
            ∀ event address next, after.DeliveringStep Platform.i386 (.call event address) next →
              ∀ block ∈ after.ledger, block ∈ next.ledger →
                ∀ byte, block.address ≤ byte → byte < block.address + block.size →
                  next.kernel.memory byte = after.kernel.memory byte :=
  ⟨not_accounts_undelivered, not_accounts_header, not_contents_word⟩

end TsoAlloc
