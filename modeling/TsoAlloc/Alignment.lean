/-
This file says when the addresses that a task is handed are aligned. The allocator rounds
nothing: a region begins where the one before it ends. So with an aligned mapping and an
aligned header the addresses are aligned as long as the sizes are, and the first other size
that leaves room for one more block spoils it.
-/

import TsoAlloc.StackDiscipline
import TsoAlloc.Traces

namespace TsoAlloc

open Extents Transition

/-- Every block of the run has one of the sizes, and every mapping begins at a multiple of the
unit. -/
def AsksFor (unit : Nat) (sizes : Set Nat) (events : List Event) : Prop :=
  ∀ environment size answer, ⟨.alloc environment size, answer⟩ ∈ events →
    size ∈ sizes ∧ unit ∣ environment.vmMmap

/-- Every address that is delivered in the run is a multiple of the unit. -/
def DeliversMultiples (unit : Nat) (events : List Event) : Prop :=
  ∀ event ∈ events, ∀ address, event.answer.delivered = some address → unit ∣ address

/-- Of the sizes, only multiples of the unit leave room for a block of one of the sizes. -/
def SizesAligned (platform : Platform) (unit : Nat) (sizes : Set Nat) : Prop :=
  ∀ size ∈ sizes, ∀ next ∈ sizes,
    platform.headerSize + size + (platform.headerSize + next) < platform.initialSize → unit ∣ size

variable {platform : Platform} {unit : Nat} {sizes : Set Nat}

theorem asksFor_cons {event : Event} {events : List Event} :
    AsksFor unit sizes (event :: events) ↔
      AsksFor unit sizes [event] ∧ AsksFor unit sizes events := by
  constructor
  · intro asked
    exact ⟨fun environment size answer member => asked environment size answer
        (List.mem_singleton.mp member ▸ List.mem_cons_self),
      fun environment size answer member => asked environment size answer
        (List.mem_cons_of_mem _ member)⟩
  · rintro ⟨here, later⟩ environment size answer member
    rcases List.mem_cons.mp member with same | further
    · exact here environment size answer (List.mem_singleton.mpr same)
    · exact later environment size answer further

theorem asksFor_alloc {environment : Environment} {size : Nat} {answer : Answer} :
    AsksFor unit sizes [⟨.alloc environment size, answer⟩] ↔
      size ∈ sizes ∧ unit ∣ environment.vmMmap := by
  constructor
  · exact fun asked => asked environment size answer List.mem_cons_self
  · intro among other asked delivered member
    have same := List.mem_singleton.mp member
    simp only [Event.mk.injEq, Call.alloc.injEq] at same
    obtain ⟨⟨rfl, rfl⟩, _⟩ := same
    exact among

theorem deliversMultiples_singleton {event : Event} :
    DeliversMultiples unit [event] ↔
      ∀ address, event.answer.delivered = some address → unit ∣ address := by
  constructor
  · exact fun multiples => multiples event List.mem_cons_self
  · intro multiples other member
    rw [List.mem_singleton.mp member]
    exact multiples

/-! ### Aligned heaps -/

/-- The mapping begins at a multiple of the unit, and so does every region; their sizes are among
the given ones. -/
structure Heap.Aligned (unit : Nat) (sizes : Set Nat) (heap : Heap platform) : Prop where
  start : unit ∣ heap.start
  regions : ∀ region ∈ heap.regions, unit ∣ region.addr ∧ region.size ∈ sizes

/-- The task has no heap yet, or an aligned one. -/
def TaskState.Aligned (unit : Nat) (sizes : Set Nat) (task : TaskState platform) : Prop :=
  ∀ heap, task.heap = some heap → heap.Aligned unit sizes

/-- A gap that admits a block of one of the sizes begins at a multiple of the unit. -/
theorem Heap.Aligned.dvd_base {heap : Heap platform} (aligned : heap.Aligned unit sizes)
    (header : unit ∣ platform.headerSize) (fit : SizesAligned platform unit sizes) {size : Nat}
    (asked : size ∈ sizes) {room : Room Region}
    (admits : heap.Admits (platform.headerSize + size) room) : unit ∣ room.base := by
  cases behind : room.behind with
  | none =>
    rw [(heap.gap_behind_eq_none admits.1).mp behind]
    exact aligned.start
  | some region =>
    obtain ⟨member, base⟩ := heap.gap_behind admits.1 behind
    obtain ⟨addr, among⟩ := aligned.regions region member
    have longer : platform.headerSize + size < room.length := by
      rcases admits.2 with longer | ⟨empty, _⟩
      · exact longer
      · rw [empty] at member
        cases member
    have taken : platform.headerSize + region.size ≤ heap.used :=
      List.single_le_sum (fun _ _ => Nat.zero_le _) _ (List.mem_map_of_mem member)
    have room_le := heap.length_le_of_mem_gaps admits.1
    have size_dvd := fit region.size among size asked (by omega)
    rw [base]
    exact (Nat.dvd_add_right addr).mpr ((Nat.dvd_add_right header).mpr size_dvd)

/-- One call keeps the heap aligned and delivers a multiple of the unit. -/
theorem TaskState.Aligned.step {task after : TaskState platform}
    (aligned : task.Aligned unit sizes) (header : unit ∣ platform.headerSize)
    (fit : SizesAligned platform unit sizes) {event : Event} (step : task.Step event after)
    (asked : AsksFor unit sizes [event]) :
    after.Aligned unit sizes ∧ DeliversMultiples unit [event] := by
  cases step with
  | alloc strategy before environment size grants =>
    obtain ⟨among, base⟩ := asksFor_alloc.mp asked
    have heap : (before.getD grants.heap).Aligned unit sizes := by
      cases before with
      | none => exact ⟨base, fun region member => absurd member List.not_mem_nil⟩
      | some heap => exact aligned heap rfl
    cases chosen : (before.getD grants.heap).choose strategy (platform.headerSize + size) with
    | none =>
      rw [Heap.alloc_of_none chosen]
      refine ⟨fun other same => Option.some.inj same ▸ heap,
        deliversMultiples_singleton.mpr ?_⟩
      rintro address ⟨⟩
    | some room =>
      have admits := (before.getD grants.heap).admits_of_choose chosen
      have dvd := heap.dvd_base header fit among admits
      rw [Heap.alloc_of_some chosen]
      refine ⟨?_, deliversMultiples_singleton.mpr ?_⟩
      · rintro other ⟨rfl⟩
        refine ⟨heap.start, fun region member => ?_⟩
        rcases ((before.getD grants.heap).mem_place admits).mp member with rfl | old
        · exact ⟨dvd, among⟩
        · exact heap.regions region old
      · intro address delivered
        dsimp only at delivered
        split at delivered
        · rw [← Option.some.inj delivered]
          exact (Nat.dvd_add_right dvd).mpr header
        · cases delivered
  | free strategy heap addr =>
    refine ⟨?_, deliversMultiples_singleton.mpr ?_⟩
    · rintro other ⟨rfl⟩
      have before := aligned heap rfl
      exact ⟨before.start, fun region member =>
        before.regions region (List.mem_of_mem_filter member)⟩
    · rintro address ⟨⟩
  | switchStrategy strategy other before =>
    refine ⟨aligned, deliversMultiples_singleton.mpr ?_⟩
    rintro address ⟨⟩

/-- A run delivers multiples of the unit. -/
theorem TaskState.Aligned.run {task after : TaskState platform}
    (aligned : task.Aligned unit sizes) (header : unit ∣ platform.headerSize)
    (fit : SizesAligned platform unit sizes) {events : List Event}
    (run : Run TaskState.Step task events after) (asked : AsksFor unit sizes events) :
    DeliversMultiples unit events := by
  induction run with
  | nil state => exact fun event member => absurd member List.not_mem_nil
  | @cons first second last event events here rest inductionHypothesis =>
    obtain ⟨askedHere, askedLater⟩ := asksFor_cons.mp asked
    obtain ⟨middle, first⟩ := aligned.step header fit here askedHere
    have further := inductionHypothesis middle askedLater
    intro other member
    rcases List.mem_cons.mp member with rfl | later
    · exact first other List.mem_cons_self
    · exact further other later

/-! ### Two blocks -/

theorem TaskState.exists_alloc (task : TaskState platform) {environment : Environment}
    (grants : environment.Grants platform) (size : Nat) :
    ∃ answer after, task.Step ⟨.alloc environment size, answer⟩ after := by
  obtain ⟨strategy, heap⟩ := task
  exact ⟨_, _, .alloc strategy heap environment size grants⟩

/-- Two blocks that fit are delivered one behind the other. -/
theorem exists_run_twoBlocks {environment : Environment} (grants : environment.Grants platform)
    (delivers : environment.copyToUser = 0) {size next : Nat}
    (fits : platform.headerSize + size + (platform.headerSize + next) < platform.initialSize) :
    ∃ last, Run (LegalStep platform) (Kernel.boot fun _ => 0)
      [⟨.alloc environment size, 0, some (environment.vmMmap + platform.headerSize)⟩,
        ⟨.alloc environment next, 0, some (environment.vmMmap + (platform.headerSize + size) +
          platform.headerSize)⟩] last := by
  have word := platform.initialSize_lt_modulus
  have models : (Kernel.boot fun _ => 0).Models (⟨.firstFit, none⟩ : TaskState platform) :=
    ⟨rfl, rfl⟩
  have empty : (⟨.firstFit, none⟩ : TaskState platform).IsStack [] := rfl
  obtain ⟨first, middle, firstStep⟩ :=
    (⟨.firstFit, none⟩ : TaskState platform).exists_alloc grants size
  obtain ⟨second, after, secondStep⟩ := middle.exists_alloc grants next
  obtain ⟨isStack, firstAnswer, base⟩ := empty.step firstStep delivers (by rintro addr ⟨⟩)
  obtain ⟨_, secondAnswer, _⟩ := isStack.step secondStep delivers (by rintro addr ⟨⟩)
  dsimp only at firstAnswer secondAnswer base
  have bottom : StackFits platform [] size :=
    Or.inr ⟨rfl, by omega⟩
  rw [stackAnswer, if_pos bottom] at firstAnswer
  obtain rfl : first = ⟨0, some (environment.vmMmap + platform.headerSize)⟩ := firstAnswer
  have above : StackFits platform (record [] ⟨.alloc environment size,
      ⟨0, some (environment.vmMmap + platform.headerSize)⟩⟩) next :=
    Or.inl fits
  rw [base, stackAnswer, if_pos above] at secondAnswer
  obtain rfl : second = ⟨0, some (environment.vmMmap + (platform.headerSize + size) +
    platform.headerSize)⟩ := secondAnswer
  have fitting : (Call.alloc environment size).Bounded platform := by
    unfold Call.Bounded
    omega
  have nextFitting : (Call.alloc environment next).Bounded platform := by
    unfold Call.Bounded
    omega
  have firstBounded : TaskState.BoundedStep _ _ middle := And.intro fitting firstStep
  have secondBounded : TaskState.BoundedStep _ _ after := And.intro nextFitting secondStep
  obtain ⟨last, run, _⟩ :=
    models.run_iff.mpr (Run.cons firstBounded (run_singleton.mpr secondBounded))
  exact ⟨last, run⟩

/-! ### Runs -/

/-- When the addresses are aligned. Let the unit divide the header, and let mappings begin at
multiples of it. Then the addresses of all blocks of all runs with the given sizes are multiples of
the unit if and only if every one of the sizes is, but for those that leave no room for a second
block. -/
theorem deliversMultiples_iff (header : unit ∣ platform.headerSize) (sizes : Set Nat)
    {environment : Environment} (grants : environment.Grants platform)
    (delivers : environment.copyToUser = 0) (base : unit ∣ environment.vmMmap) :
    (∀ start events last, start.Fresh → Run (LegalStep platform) start events last →
        AsksFor unit sizes events → DeliversMultiples unit events) ↔
      SizesAligned platform unit sizes := by
  constructor
  · intro always size among next nextAmong fits
    obtain ⟨last, run⟩ := exists_run_twoBlocks grants delivers fits
    have asked : AsksFor unit sizes
        [⟨.alloc environment size, 0, some (environment.vmMmap + platform.headerSize)⟩,
          ⟨.alloc environment next, 0, some (environment.vmMmap + (platform.headerSize + size) +
            platform.headerSize)⟩] :=
      asksFor_cons.mpr ⟨asksFor_alloc.mpr ⟨among, base⟩, asksFor_alloc.mpr ⟨nextAmong, base⟩⟩
    have second := always _ _ last (Kernel.fresh_boot _) run asked _
      (List.mem_cons_of_mem _ List.mem_cons_self) _ rfl
    have above := (Nat.dvd_add_iff_left header).mpr second
    exact (Nat.dvd_add_right header).mp ((Nat.dvd_add_right base).mp above)
  · intro fit start events last fresh run asked
    obtain ⟨strategy, models⟩ := fresh.models platform
    obtain ⟨task, taskRun, _⟩ := run_refines models run
    have empty : (⟨strategy, none⟩ : TaskState platform).Aligned unit sizes :=
      fun heap found => by cases found
    exact empty.run header fit taskRun asked

/-- Two blocks whose sizes are multiples of four. -/
theorem deliversMultiples_sample : ∃ last,
    Run (LegalStep Platform.i386) (Kernel.boot fun _ => 0)
        [⟨.alloc .secondPage 40, 0, some 0x1008⟩, ⟨.alloc .secondPage 60, 0, some 0x1038⟩] last ∧
      DeliversMultiples 4
        [⟨.alloc .secondPage 40, 0, some 0x1008⟩, ⟨.alloc .secondPage 60, 0, some 0x1038⟩] := by
  have grants : Environment.secondPage.Grants Platform.i386 := by decide
  obtain ⟨last, run⟩ := exists_run_twoBlocks grants rfl
    (by decide : Platform.i386.headerSize + 40 + (Platform.i386.headerSize + 60) <
      Platform.i386.initialSize)
  have asked : AsksFor 4 {size | 4 ∣ size}
      [⟨.alloc .secondPage 40, 0, some 0x1008⟩, ⟨.alloc .secondPage 60, 0, some 0x1038⟩] :=
    asksFor_cons.mpr ⟨asksFor_alloc.mpr ⟨(by decide : 4 ∣ 40), by decide⟩,
      asksFor_alloc.mpr ⟨(by decide : 4 ∣ 60), by decide⟩⟩
  exact ⟨last, run, (deliversMultiples_iff (by decide) {size | 4 ∣ size} grants rfl
    (by decide)).mpr (fun _ among _ _ _ => among) _ _ last (Kernel.fresh_boot _) run asked⟩

end TsoAlloc
