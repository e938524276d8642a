/-
This file treats tasks that free their blocks in the reverse order of their allocation, the
newest one first. Their heap never has a gap but the one behind the last region: every
strategy finds the same place, and the allocator is a stack allocator whose answers can be
computed from the calls alone. So such a task cannot tell the strategies apart, and no
request is refused while the mapping has room for it behind the blocks.
-/

import TsoAlloc.Ledger

namespace TsoAlloc

open Extents Transition

/-! ### The stack allocator -/

section

variable (platform : Platform)

/-- The bytes of some blocks, headers included. -/
def depth (ledger : List Block) : Nat :=
  (ledger.map fun block => platform.headerSize + block.size).sum

/-- A stack of blocks has room for one more: it stays below the end of the mapping, which only the
first block may reach. -/
def StackFits (ledger : List Block) (size : Nat) : Prop :=
  depth platform ledger + (platform.headerSize + size) < platform.initialSize ∨
    ledger = [] ∧ platform.headerSize + size ≤ platform.initialSize

instance (ledger : List Block) (size : Nat) : Decidable (StackFits platform ledger size) :=
  inferInstanceAs (Decidable (_ ∨ _))

/-- The answer of a stack allocator, whose mapping begins at `base` once there is one. -/
def stackAnswer (base : Option Nat) (ledger : List Block) : Call → Answer
  | .alloc environment size =>
    if StackFits platform ledger size then
      ⟨0, some (base.getD environment.vmMmap + depth platform ledger + platform.headerSize)⟩
    else ⟨-1, none⟩
  | .free _ => ⟨0, none⟩
  | .switchStrategy _ => ⟨0, none⟩

/-- The first allocation makes the mapping. -/
def stackBase (base : Option Nat) : Call → Option Nat
  | .alloc environment _ => some (base.getD environment.vmMmap)
  | .free _ => base
  | .switchStrategy _ => base

/-- What a stack allocator makes of calls. -/
def stackEvents : Option Nat → List Block → List Call → List Event
  | _, _, [] => []
  | base, ledger, call :: calls =>
    let event : Event := ⟨call, stackAnswer platform base ledger call⟩
    event :: stackEvents (stackBase base call) (record ledger event) calls

end

/-- Every call delivers its answer, and only the newest block of the ledger is freed. -/
def LastInFirstOut : List Block → List Event → Prop
  | _, [] => True
  | ledger, event :: events =>
    event.call.Delivers ∧
      (∀ addr, event.call = .free addr → ledger.head?.map Block.address = some addr) ∧
        LastInFirstOut (record ledger event) events

/-- The call is no switch of the strategy. -/
def Call.uses : Call → Bool
  | .alloc _ _ => true
  | .free _ => true
  | .switchStrategy _ => false

variable {platform : Platform}

/-! ### Regions without gaps -/

/-- Regions that follow each other without a gap end where their bytes do. -/
theorem roomBase_of_contiguous {lo : Nat} {regions : List Region}
    (contiguous : Contiguous Region.addr (Region.top platform) lo regions) :
    roomBase (Region.top platform) lo regions =
      lo + (regions.map fun region => platform.headerSize + region.size).sum := by
  induction regions generalizing lo with
  | nil => rfl
  | cons region regions inductionHypothesis =>
    obtain ⟨low, rest⟩ := contiguous
    have behind := inductionHypothesis rest
    rw [List.map_cons, List.sum_cons, ← low, ← Nat.add_assoc]
    exact behind

/-- The heap is a stack of the blocks of the ledger, the oldest one at the bottom. -/
structure Heap.IsStack (heap : Heap platform) (ledger : List Block) : Prop where
  contiguous : Contiguous Region.addr (Region.top platform) heap.start heap.regions
  blocks : heap.regions.map (Region.block platform) = ledger.reverse

/-- The task has no heap and no block, or its heap is a stack. -/
def TaskState.IsStack (task : TaskState platform) (ledger : List Block) : Prop :=
  match task.heap with
  | none => ledger = []
  | some heap => heap.IsStack ledger

namespace Heap.IsStack

variable {heap : Heap platform} {ledger : List Block}

theorem used_eq (isStack : heap.IsStack ledger) : heap.used = depth platform ledger := by
  have sizes : (heap.regions.map fun region => platform.headerSize + region.size) =
      (heap.regions.map (Region.block platform)).map
        fun block => platform.headerSize + block.size := by
    rw [List.map_map]
    rfl
  unfold Layout.used depth
  rw [sizes, isStack.blocks, List.map_reverse, List.sum_reverse]

theorem roomBase_eq (isStack : heap.IsStack ledger) :
    roomBase (Region.top platform) heap.start heap.regions =
      heap.start + depth platform ledger := by
  rw [roomBase_of_contiguous isStack.contiguous, ← isStack.used_eq]
  rfl

theorem regions_eq_nil (isStack : heap.IsStack ledger) : heap.regions = [] ↔ ledger = [] := by
  rw [← List.map_eq_nil_iff (f := Region.block platform), isStack.blocks, List.reverse_eq_nil_iff]

/-- The only gap of a stack is the one behind the last region. -/
theorem gapsAbove_eq (isStack : heap.IsStack ledger) (bytes : Nat) :
    heap.gapsAbove bytes =
      if depth platform ledger + bytes < platform.initialSize then
        [⟨heap.regions.getLast?, heap.start + depth platform ledger,
          platform.initialSize - depth platform ledger⟩]
      else [] := by
  have split : heap.regions = heap.regions ++ [] := (List.append_nil _).symm
  have left : heap.stop - (heap.start + depth platform ledger) =
      platform.initialSize - depth platform ledger := by
    unfold Layout.stop
    omega
  unfold Layout.gapsAbove Layout.gaps
  conv_lhs => rw [split, isStack.contiguous.filter_rooms]
  rw [Option.or_none, isStack.roomBase_eq, rooms, left]
  by_cases below : depth platform ledger + bytes < platform.initialSize
  · rw [if_pos below, List.filter_cons_of_pos (by rw [decide_eq_true_eq]; dsimp only; omega)]
    rfl
  · rw [if_neg below, List.filter_cons_of_neg (by rw [decide_eq_true_eq]; dsimp only; omega)]
    rfl

/-- On a stack every strategy picks the gap behind the last region. -/
theorem choose_eq (isStack : heap.IsStack ledger) (strategy : AllocationStrategy) (size : Nat) :
    heap.choose strategy (platform.headerSize + size) =
      if StackFits platform ledger size then
        some ⟨heap.regions.getLast?, heap.start + depth platform ledger,
          platform.initialSize - depth platform ledger⟩
      else none := by
  by_cases empty : heap.regions = []
  · have none := isStack.regions_eq_nil.mp empty
    have bottom : depth platform ledger = 0 := by
      rw [none]
      rfl
    have fits : StackFits platform ledger size ↔
        platform.headerSize + size ≤ platform.initialSize := by
      unfold StackFits
      rw [bottom]
      constructor
      · rintro (below | ⟨_, enough⟩) <;> omega
      · exact fun enough => Or.inr ⟨none, enough⟩
    rw [heap.choose_of_empty empty, empty, bottom]
    simp only [fits]
    rfl
  · have some : ledger ≠ [] := fun none => empty (isStack.regions_eq_nil.mpr none)
    have fits : StackFits platform ledger size ↔
        depth platform ledger + (platform.headerSize + size) < platform.initialSize := by
      unfold StackFits
      simp only [some, false_and, or_false]
    rw [Layout.choose, if_neg empty, isStack.gapsAbove_eq]
    simp only [fits]
    split
    · cases strategy <;> rfl
    · cases strategy <;> rfl

/-- A block that is pushed lies behind the others. -/
theorem push (isStack : heap.IsStack ledger) {size : Nat} {room : Room Region}
    (base : room.base = heap.start + depth platform ledger)
    (admits : heap.Admits (platform.headerSize + size) room) :
    (heap.place size room admits).IsStack
      (⟨room.base + platform.headerSize, size⟩ :: ledger) := by
  have behind : room.base = roomBase (Region.top platform) heap.start heap.regions :=
    base.trans isStack.roomBase_eq.symm
  have placed : (heap.place size room admits).regions = heap.regions ++ [⟨room.base, size⟩] :=
    heap.insertRegion_eq (List.append_nil _).symm behind
  constructor
  · rw [placed]
    exact contiguous_append.mpr ⟨isStack.contiguous, behind, trivial⟩
  · rw [placed, List.map_append, isStack.blocks, List.reverse_cons]
    rfl

/-- The newest block is the last region. -/
theorem exists_last (isStack : heap.IsStack ledger) {addr : Nat}
    (newest : ledger.head?.map Block.address = some addr) :
    ∃ front region, heap.regions = front ++ [region] ∧ region.payload platform = addr := by
  obtain ⟨block, head, rfl⟩ := Option.map_eq_some_iff.mp newest
  obtain ⟨rest, rfl⟩ := List.head?_eq_some_iff.mp head
  have blocks := isStack.blocks
  rw [List.reverse_cons] at blocks
  obtain ⟨front, last, split, _, ends⟩ := List.map_eq_append_iff.mp blocks
  obtain ⟨region, rfl, rfl⟩ := List.map_eq_singleton_iff.mp ends
  exact ⟨front, region, split, rfl⟩

theorem pop (isStack : heap.IsStack ledger) {addr : Nat}
    (newest : ledger.head?.map Block.address = some addr) :
    (heap.release addr).IsStack (ledger.filter fun block => block.address ≠ addr) := by
  obtain ⟨front, region, split, rfl⟩ := isStack.exists_last newest
  have released : (heap.release (region.payload platform)).regions = front ++ [] :=
    heap.release_regions split
  constructor
  · have contiguous := isStack.contiguous
    rw [split] at contiguous
    rw [released, List.append_nil]
    exact (contiguous_append.mp contiguous).1
  · rw [heap.block_release, isStack.blocks, List.filter_reverse]

end Heap.IsStack

/-! ### Runs -/

/-- One call: the heap stays a stack, and the answer is that of a stack allocator. -/
theorem TaskState.IsStack.step {task after : TaskState platform} {ledger : List Block}
    (isStack : task.IsStack ledger) {event : Event} (step : task.Step event after)
    (delivers : event.call.Delivers)
    (newest : ∀ addr, event.call = .free addr → ledger.head?.map Block.address = some addr) :
    after.IsStack (record ledger event) ∧
      event.answer = stackAnswer platform (task.heap.map fun heap => heap.start) ledger
        event.call ∧
        (after.heap.map fun heap => heap.start) =
          stackBase (task.heap.map fun heap => heap.start) event.call := by
  cases step with
  | alloc strategy before environment size grants =>
    have delivered : environment.copyToUser = 0 := delivers
    have stack : (before.getD grants.heap).IsStack ledger := by
      cases before with
      | none =>
        obtain rfl : ledger = [] := isStack
        exact ⟨trivial, rfl⟩
      | some heap => exact isStack
    have base : (before.getD grants.heap).start =
        (before.map fun heap => heap.start).getD environment.vmMmap := by
      cases before <;> rfl
    have chosen := stack.choose_eq strategy size
    by_cases fits : StackFits platform ledger size
    · rw [if_pos fits] at chosen
      rw [Heap.alloc_of_some chosen]
      unfold stackAnswer record
      simp only [delivered, fits, if_true, Option.map_some, Option.toList_some,
        List.singleton_append, ← base]
      exact ⟨stack.push rfl _, trivial, congrArg some base⟩
    · rw [if_neg fits] at chosen
      rw [Heap.alloc_of_none chosen]
      unfold stackAnswer record
      simp only [fits, if_false, Option.map_none, Option.toList_none, List.nil_append]
      exact ⟨stack, trivial, congrArg some base⟩
  | free strategy heap addr =>
    have stack : heap.IsStack ledger := isStack
    have head := newest addr rfl
    obtain ⟨front, region, split, rfl⟩ := stack.exists_last head
    have member : region ∈ heap.regions := split ▸ List.mem_append_right _ List.mem_cons_self
    exact ⟨stack.pop head, heap.free_answer member, rfl⟩
  | switchStrategy strategy other before => exact ⟨isStack, rfl, rfl⟩

/-- A run on a stack is one of a stack allocator. -/
theorem TaskState.IsStack.run {task after : TaskState platform} {ledger : List Block}
    (isStack : task.IsStack ledger) {events : List Event}
    (run : Run TaskState.Step task events after) (lifo : LastInFirstOut ledger events) :
    after.IsStack (events.foldl record ledger) ∧
      events = stackEvents platform (task.heap.map fun heap => heap.start) ledger
        (events.map Event.call) := by
  induction run generalizing ledger with
  | nil state => exact ⟨isStack, rfl⟩
  | @cons first second last event events here rest inductionHypothesis =>
    obtain ⟨delivers, newest, restLifo⟩ := lifo
    obtain ⟨stack, answered, base⟩ := isStack.step here delivers newest
    obtain ⟨final, follows⟩ := inductionHypothesis stack restLifo
    refine ⟨final, ?_⟩
    have same : event = ⟨event.call, stackAnswer platform (first.heap.map fun heap => heap.start)
        ledger event.call⟩ := by rw [← answered]
    rw [List.map_cons, stackEvents, ← base, ← same, ← follows]

variable {start last : Kernel} {events : List Event}

/-- A task that frees its newest blocks first uses the kernel as a stack allocator. -/
theorem Kernel.Fresh.isStack (fresh : start.Fresh)
    (run : Run (LegalStep platform) start events last) (lifo : LastInFirstOut [] events) :
    ∃ task : TaskState platform, last.Models task ∧ task.IsStack (events.foldl record []) ∧
      events = stackEvents platform none [] (events.map Event.call) := by
  obtain ⟨strategy, models⟩ := fresh.models platform
  obtain ⟨task, taskRun, refined⟩ := run_refines models run
  have empty : (⟨strategy, none⟩ : TaskState platform).IsStack [] := rfl
  obtain ⟨isStack, follows⟩ := empty.run taskRun lifo
  exact ⟨task, refined, isStack, follows⟩

/-- In every run in which only the newest block is freed, under any strategies and switches: the
answers are those of a stack allocator, which depend on the calls alone; the list is that of the
blocks from the oldest to the newest, one directly behind the other from the start of the mapping;
and all other bytes are free. -/
theorem stack_of_run (fresh : start.Fresh) (run : Run (LegalStep platform) start events last)
    (lifo : LastInFirstOut [] events) :
    events = stackEvents platform none [] (events.map Event.call) ∧
      ∀ mm, last.currentMm = some mm → ∃ regions,
        Listed platform last.memory mm.firstRegion regions ∧
          regions.map (Region.block platform) = (events.foldl record []).reverse ∧
            Contiguous Region.addr (Region.top platform) mm.start regions ∧
              mm.free + depth platform (events.foldl record []) = mm.size := by
  obtain ⟨task, models, isStack, follows⟩ := fresh.isStack run lifo
  refine ⟨follows, fun mm mapped => ?_⟩
  obtain ⟨strategy, heap⟩ := task
  cases heap with
  | none =>
    have unmapped : last.currentMm = none := models.2
    rw [mapped] at unmapped
    cases unmapped
  | some heap =>
    obtain ⟨found, foundHere, represents⟩ := models.2
    obtain rfl := Option.some.inj (mapped.symm.trans foundHere)
    have stack : heap.IsStack (events.foldl record []) := isStack
    refine ⟨heap.regions, represents.listed, stack.blocks, ?_, ?_⟩
    · rw [represents.start]
      exact stack.contiguous
    · have used := heap.used_le
      rw [represents.free, represents.size, ← stack.used_eq]
      unfold Heap.freeBytes
      omega

/-- Two blocks, of which the newest is freed before a third one is allocated, with a switch before
it. -/
theorem stack_sample : ∃ kernel,
    Run (LegalStep Platform.i386) (Kernel.boot fun _ => 0)
        [⟨.alloc .secondPage 40, 0, some 0x1008⟩, ⟨.alloc .secondPage 60, 0, some 0x1038⟩,
          ⟨.free 0x1038, 0, none⟩, ⟨.switchStrategy AllocationStrategy.worstFit.value, 0, none⟩,
          ⟨.alloc .secondPage 20, 0, some 0x1038⟩] kernel ∧
      ∀ mm, kernel.currentMm = some mm → ∃ regions,
        Listed Platform.i386 kernel.memory mm.firstRegion regions ∧
          regions.map (Region.block Platform.i386) = [⟨0x1008, 40⟩, ⟨0x1038, 20⟩] ∧
            Contiguous Region.addr (Region.top Platform.i386) mm.start regions ∧
              mm.free + 76 = mm.size := by
  obtain ⟨events, kernel, run, rfl⟩ := exists_run Platform.i386 9 (Kernel.boot fun _ => 0)
    [.alloc .secondPage 40, .alloc .secondPage 60, .free 0x1038,
      .switchStrategy AllocationStrategy.worstFit.value, .alloc .secondPage 20]
    (fun state => state.1)
    (show _ = some [⟨.alloc .secondPage 40, 0, some 0x1008⟩,
      ⟨.alloc .secondPage 60, 0, some 0x1038⟩, ⟨.free 0x1038, 0, none⟩,
      ⟨.switchStrategy AllocationStrategy.worstFit.value, 0, none⟩,
      ⟨.alloc .secondPage 20, 0, some 0x1038⟩] by decide +kernel)
  exact ⟨kernel, run, (stack_of_run (Kernel.fresh_boot _) run
    (by simp [LastInFirstOut, Call.Delivers, record, Environment.secondPage])).2⟩

end TsoAlloc
