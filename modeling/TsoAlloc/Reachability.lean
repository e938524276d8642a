/-
This file says exactly which heaps the allocator can get into. Two things limit it. A
region lies at the start of the mapping or behind another region, and the gap that it
leaves there when that one is freed holds at least a header; and the gap test is strict,
so only a region that was put in an empty mapping ever reaches the end of it. Every other
list of regions can be reached, from every state of the task: the blocks it holds are
freed, and the list is built with `FIRST_FIT` from its end to its start, each gap of it
held open by a filler that reaches from the start of the mapping to the next region.
-/

import TsoAlloc.Traces

namespace TsoAlloc

open Extents Transition

/-- The heaps that calls lead to: every region lies at the start of the mapping or leaves room
for a header there, and no region reaches the end of the mapping unless it is all of it. -/
structure Heap.Attainable {platform : Platform} (heap : Heap platform) : Prop where
  low : ∀ region ∈ heap.regions,
    region.addr = heap.start ∨ heap.start + platform.headerSize ≤ region.addr
  high : (∀ region ∈ heap.regions, region.top platform < heap.stop) ∨
    heap.regions = [⟨heap.start, platform.initialSize - platform.headerSize⟩]

/-- The heap of a task, if there is one, is attainable. -/
def TaskState.Attainable {platform : Platform} (task : TaskState platform) : Prop :=
  ∀ heap, task.heap = some heap → heap.Attainable

/-- The task has a mapping that begins at an address. -/
def TaskState.MappedAt {platform : Platform} (task : TaskState platform) (start : Nat) : Prop :=
  ∃ heap, task.heap = some heap ∧ heap.start = start

/-- Bounded calls under `FIRST_FIT` lead from one heap to another. -/
def Heap.LeadsTo {platform : Platform} (heap next : Heap platform) : Prop :=
  ∃ events, Run TaskState.BoundedStep (⟨.firstFit, some heap⟩ : TaskState platform) events
    ⟨.firstFit, some next⟩

variable {platform : Platform}

/-! ### What a call leaves attainable -/

namespace Heap

theorem attainable_empty (start : Nat) (start_pos : 0 < start)
    (fits : start + platform.initialSize ≤ platform.modulus) :
    (Heap.empty start start_pos fits).Attainable where
  low := by intro region member; cases member
  high := by left; intro region member; cases member

namespace Attainable

variable {heap : Heap platform}

/-- A heap with one region that fills the mapping has no gap. -/
theorem gap_of_full
    (full : heap.regions = [⟨heap.start, platform.initialSize - platform.headerSize⟩])
    {room : Room Region} (gap : room ∈ heap.gaps) : room.length = 0 := by
  have bound := heap.length_le_of_mem_gaps gap
  have small := platform.two_headers_lt_initialSize
  have used : heap.used = platform.initialSize := by
    rw [Layout.used, full, List.map_singleton, List.sum_singleton]
    show platform.headerSize + (platform.initialSize - platform.headerSize) = _
    omega
  omega

/-- Placing a region leaves the heap attainable. -/
theorem place (attainable : heap.Attainable) {size : Nat} {room : Room Region}
    (admits : heap.Admits (platform.headerSize + size) room) :
    (heap.place size room admits).Attainable where
  low := by
    intro region member
    rcases heap.mem_place admits |>.mp member with rfl | member
    · show room.base = heap.start ∨ heap.start + platform.headerSize ≤ room.base
      cases behind : room.behind with
      | none => exact Or.inl ((heap.gap_behind_eq_none admits.1).mp behind)
      | some before =>
        obtain ⟨beforeMember, base⟩ := heap.gap_behind admits.1 behind
        have above := (heap.within beforeMember).1
        right
        rw [base, Region.top]
        omega
    · exact attainable.low region member
  high := by
    have inside := (heap.gap_within admits.1).2
    have new : (⟨room.base, size⟩ : Region).top platform =
        room.base + (platform.headerSize + size) := rfl
    rcases admits.2 with longer | ⟨empty, enough⟩
    · left
      intro region member
      rcases heap.mem_place admits |>.mp member with rfl | member
      · show Region.top platform _ < heap.stop
        rw [new]
        omega
      · rcases attainable.high with short | full
        · exact short region member
        · have := gap_of_full full admits.1
          omega
    · have only : room = ⟨none, heap.start, platform.initialSize⟩ := by
        have gap := admits.1
        rwa [heap.gaps_of_empty empty, List.mem_singleton] at gap
      have placed : (heap.place size room admits).regions = [⟨heap.start, size⟩] := by
        show insertRegion heap.regions ⟨room.base, size⟩ = _
        rw [empty, only]
        rfl
      have bound : platform.headerSize + size ≤ platform.initialSize := by
        rw [only] at enough
        exact enough
      rw [placed]
      rcases Nat.lt_or_eq_of_le bound with short | exactly
      · left
        intro region member
        rw [List.mem_singleton.mp member]
        show heap.start + (platform.headerSize + size) < heap.start + platform.initialSize
        exact Nat.add_lt_add_left short heap.start
      · right
        rw [← exactly, Nat.add_sub_cancel_left]
        rfl

theorem release (attainable : heap.Attainable) (addr : Nat) : (heap.release addr).Attainable where
  low := fun region member => attainable.low region (List.mem_of_mem_filter member)
  high := by
    rcases attainable.high with short | full
    · exact Or.inl fun region member => short region (List.mem_of_mem_filter member)
    · have left : (heap.release addr).regions.Sublist heap.regions := List.filter_sublist
      rw [full, List.sublist_singleton] at left
      rcases left with empty | same
      · left
        intro region member
        rw [empty] at member
        cases member
      · exact Or.inr same

end Attainable

end Heap

/-- A call of the abstract task leaves its heap attainable. -/
theorem TaskState.Step.attainable {task next : TaskState platform} {event : Event}
    (step : task.Step event next) (attainable : task.Attainable) : next.Attainable := by
  cases step with
  | alloc strategy heap environment size grants =>
    have before : (heap.getD grants.heap).Attainable := by
      cases heap with
      | none => exact Heap.attainable_empty _ _ _
      | some heap => exact attainable heap rfl
    rintro _ ⟨⟩
    cases chosen : (heap.getD grants.heap).choose strategy (platform.headerSize + size) with
    | none => rwa [Heap.alloc_of_none chosen]
    | some room =>
      rw [Heap.alloc_of_some chosen]
      exact before.place _
  | free strategy heap addr =>
    rintro _ ⟨⟩
    exact (attainable heap rfl).release addr
  | switchStrategy strategy next heap => exact attainable

/-! ### One heap leads to another -/

/-- `vm_mmap` returns the start of the heap. -/
def Heap.environment (heap : Heap platform) : Environment where
  kmalloc := true
  vmMmap := heap.start
  copyToUser := 0

theorem Heap.grants (heap : Heap platform) : heap.environment.Grants platform :=
  ⟨rfl, heap.start_pos, heap.fits⟩

namespace Heap

variable {heap : Heap platform}

theorem LeadsTo.refl (heap : Heap platform) : heap.LeadsTo heap := ⟨[], Run.nil _⟩

theorem LeadsTo.trans {middle next : Heap platform} (first : heap.LeadsTo middle)
    (second : middle.LeadsTo next) : heap.LeadsTo next := by
  obtain ⟨front, firstRun⟩ := first
  obtain ⟨back, secondRun⟩ := second
  exact ⟨front ++ back, run_append.mpr ⟨_, firstRun, secondRun⟩⟩

theorem bounded_of_admits {size : Nat} {room : Room Region}
    (admits : heap.Admits (platform.headerSize + size) room) :
    platform.headerSize + size < platform.modulus := by
  have enough := admits.le
  have := heap.length_le_of_mem_gaps admits.1
  have := platform.initialSize_lt_modulus
  omega

/-- An allocation leads to the heap with the region in the gap that `FIRST_FIT` chooses. -/
theorem leadsTo_place {size : Nat} {room : Room Region}
    (chosen : heap.choose .firstFit (platform.headerSize + size) = some room) :
    heap.LeadsTo (heap.place size room (heap.admits_of_choose chosen)) := by
  have step := TaskState.Step.alloc .firstFit (some heap) heap.environment size heap.grants
  have allocated : ((some heap).getD heap.grants.heap).alloc .firstFit heap.environment size =
      (heap.place size room (heap.admits_of_choose chosen),
        ⟨0, some (room.base + platform.headerSize)⟩) := Heap.alloc_of_some chosen
  have bounded : (Call.alloc heap.environment size).Bounded platform :=
    bounded_of_admits (heap.admits_of_choose chosen)
  rw [allocated] at step
  exact ⟨_, run_singleton.mpr ⟨bounded, step⟩⟩

theorem leadsTo_release (heap : Heap platform) (addr : Nat) : heap.LeadsTo (heap.release addr) := by
  have bounded : (Call.free addr).Bounded platform := trivial
  exact ⟨_, run_singleton.mpr ⟨bounded, .free .firstFit heap addr⟩⟩

theorem leadsTo_empty (heap : Heap platform) :
    heap.LeadsTo (Heap.empty heap.start heap.start_pos heap.fits) := by
  induction shape : heap.regions generalizing heap with
  | nil =>
    have same : heap = Heap.empty heap.start heap.start_pos heap.fits := Heap.ext rfl shape
    rw [← same]
    exact LeadsTo.refl heap
  | cons region rest inductionHypothesis =>
    have released : (heap.release (region.payload platform)).regions = rest :=
      heap.release_regions (show heap.regions = [] ++ region :: rest from shape)
    exact (heap.leadsTo_release _).trans (inductionHypothesis _ released)

/-! ### Building a heap -/

/-- Behind regions that lie one after another from the start of the mapping, `FIRST_FIT` takes the
gap that follows them, if it is long enough. -/
theorem choose_behind {front back : List Region} (split : heap.regions = front ++ back)
    (contiguous : Contiguous Region.addr (Region.top platform) heap.start front) {bytes : Nat}
    (fits : bytes < roomTop Region.addr heap.stop back -
      roomBase (Region.top platform) heap.start front) :
    heap.choose .firstFit bytes = some ⟨front.getLast?,
      roomBase (Region.top platform) heap.start front, roomTop Region.addr heap.stop back -
        roomBase (Region.top platform) heap.start front⟩ := by
  by_cases empty : heap.regions = []
  · obtain ⟨rfl, rfl⟩ := List.append_eq_nil_iff.mp (split.symm.trans empty)
    have whole : heap.stop - heap.start = platform.initialSize := Nat.add_sub_cancel_left _ _
    have enough : bytes ≤ platform.initialSize := by
      have short : bytes < heap.stop - heap.start := fits
      omega
    rw [heap.choose_of_empty empty, if_pos enough]
    show _ = some (⟨none, heap.start, heap.stop - heap.start⟩ : Room Region)
    rw [whole]
  · obtain ⟨rest, first⟩ : ∃ rest, rooms Region.addr (Region.top platform)
        (front.getLast?.or none) (roomBase (Region.top platform) heap.start front) heap.stop back =
          ⟨_, _, _⟩ :: rest := rooms_eq_cons back
    rw [Layout.choose, if_neg empty, Layout.pick, Layout.gapsAbove, Layout.gaps, split,
      contiguous.filter_rooms, first]
    simp [fits]

/-- Regions are placed one after another into the gap behind those that already lie at the start
of the mapping. -/
theorem exists_filled {heap : Heap platform} {front back : List Region} (pending : List Region)
    (split : heap.regions = front ++ back)
    (contiguous : Contiguous Region.addr (Region.top platform) heap.start (front ++ pending))
    (short : ∀ region ∈ pending, region.top platform < roomTop Region.addr heap.stop back) :
    ∃ next : Heap platform, next.start = heap.start ∧
      next.regions = front ++ pending ++ back ∧ heap.LeadsTo next := by
  induction pending generalizing heap front with
  | nil => exact ⟨heap, rfl, by rw [split, List.append_nil], LeadsTo.refl heap⟩
  | cons region pending inductionHypothesis =>
    obtain ⟨before, here, _⟩ := contiguous_append.mp contiguous
    have below := short region List.mem_cons_self
    have chosen : heap.choose .firstFit (platform.headerSize + region.size) = some _ :=
      heap.choose_behind split before (by
        rw [← here]
        unfold Region.top at below
        omega)
    have placed := heap.insertRegion_eq split here
    have same : (⟨roomBase (Region.top platform) heap.start front, region.size⟩ : Region) =
        region := by rw [← here]
    have nextSplit : (heap.place region.size _ (heap.admits_of_choose chosen)).regions =
        (front ++ [region]) ++ back := by
      show insertRegion heap.regions ⟨_, region.size⟩ = _
      rw [same, placed, List.append_assoc, List.singleton_append]
    have nextContiguous : Contiguous Region.addr (Region.top platform) heap.start
        (front ++ [region] ++ pending) := by
      rwa [List.append_assoc, List.singleton_append]
    obtain ⟨next, start, regions, leads⟩ := inductionHypothesis nextSplit nextContiguous
      fun other member => short other (List.mem_cons_of_mem _ member)
    refine ⟨next, start, ?_, (leadsTo_place chosen).trans leads⟩
    rw [regions, List.append_assoc front, List.singleton_append]

/-- A region that reaches from the start of the mapping to another region. -/
def filler (heap : Heap platform) (region : Region) : Region where
  addr := heap.start
  size := region.addr - (heap.start + platform.headerSize)

theorem filler_top {region : Region} (far : heap.start + platform.headerSize ≤ region.addr) :
    (heap.filler region).top platform = region.addr := by
  unfold Region.top filler
  dsimp only
  omega

/-- The regions from one on, behind a filler, are the regions of a heap. -/
theorem exists_plugged {front back : List Region} {region : Region}
    (split : heap.regions = front ++ region :: back)
    (far : heap.start + platform.headerSize ≤ region.addr) :
    ∃ plugged : Heap platform, plugged.start = heap.start ∧
      plugged.regions = heap.filler region :: region :: back := by
  have packed := heap.packed
  rw [split] at packed
  obtain ⟨_, _, ordered, tail⟩ := packed_append.mp packed
  have member : region ∈ heap.regions := split ▸ List.mem_append_cons_self
  have inside := heap.payload_lt region member
  refine ⟨{
    start := heap.start
    regions := heap.filler region :: region :: back
    start_pos := heap.start_pos
    fits := heap.fits
    packed := ⟨le_rfl, (Region.addr_lt_top platform _).le, (filler_top far).le, ordered, tail⟩
    payload_lt := ?_ }, rfl, rfl⟩
  intro other otherMember
  rcases List.mem_cons.mp otherMember with rfl | otherMember
  · show heap.start + platform.headerSize < heap.start + platform.initialSize
    unfold Region.payload at inside
    omega
  · exact heap.payload_lt other (split ▸ List.mem_append_right _ otherMember)

/-- Behind a filler the regions still leave room for a header at the start and end before the
mapping does. -/
theorem plugged_spread {plugged : Heap platform} {region : Region} {back : List Region}
    (start : plugged.start = heap.start)
    (regions : plugged.regions = heap.filler region :: region :: back)
    (far : heap.start + platform.headerSize ≤ region.addr)
    (low : ∀ other ∈ region :: back,
      other.addr = heap.start ∨ heap.start + platform.headerSize ≤ other.addr)
    (high : ∀ other ∈ region :: back, other.top platform < heap.stop) :
    (∀ other ∈ plugged.regions,
      other.addr = plugged.start ∨ plugged.start + platform.headerSize ≤ other.addr) ∧
      ∀ other ∈ plugged.regions, other.top platform < plugged.stop := by
  have stop : plugged.stop = heap.stop := by
    rw [Layout.stop, start]
    rfl
  rw [regions, start, stop]
  constructor
  · intro other member
    rcases List.mem_cons.mp member with rfl | member
    · exact Or.inl rfl
    · exact low other member
  · intro other member
    rcases List.mem_cons.mp member with rfl | member
    · rw [filler_top far]
      exact (region.addr_lt_top platform).trans (high region List.mem_cons_self)
    · exact high other member

/-- The empty heap leads to every heap whose regions leave room for a header at the start and end
before the mapping does. The regions at the start that lie one after another wait in `front` until
the ones behind them are placed. -/
theorem leadsTo_of_spread {target : Heap platform} {front back : List Region}
    (split : target.regions = front ++ back)
    (contiguous : Contiguous Region.addr (Region.top platform) target.start front)
    (low : ∀ region ∈ target.regions,
      region.addr = target.start ∨ target.start + platform.headerSize ≤ region.addr)
    (high : ∀ region ∈ target.regions, region.top platform < target.stop) :
    (Heap.empty target.start target.start_pos target.fits).LeadsTo target := by
  induction back generalizing target front with
  | nil =>
    have short : ∀ region ∈ front, region.top platform < target.stop :=
      fun region member => high region (split ▸ List.mem_append_left _ member)
    have none : (Heap.empty target.start target.start_pos target.fits).regions = [] ++ [] := rfl
    obtain ⟨next, start, regions, leads⟩ := exists_filled front none contiguous short
    have same : next = target := Heap.ext start (regions.trans split.symm)
    rwa [same] at leads
  | cons region back inductionHypothesis =>
    have packed := target.packed
    rw [split] at packed
    obtain ⟨first, above, _⟩ := packed_append.mp packed
    have member : region ∈ target.regions := split ▸ List.mem_append_cons_self
    rcases Nat.lt_or_eq_of_le above with gap | touches
    · -- A gap before the region: a filler holds it open while the rest is placed.
      have far : target.start + platform.headerSize ≤ region.addr := by
        have := first.le_roomBase
        rcases low region member with atStart | far
        · omega
        · exact far
      obtain ⟨plugged, start, regions⟩ := exists_plugged split far
      have behind : ∀ other ∈ region :: back, other ∈ target.regions :=
        fun other otherMember => split ▸ List.mem_append_right _ otherMember
      have pluggedContiguous : Contiguous Region.addr (Region.top platform) plugged.start
          [target.filler region, region] := ⟨start.symm, (filler_top far).symm, trivial⟩
      obtain ⟨pluggedLow, pluggedHigh⟩ := plugged_spread start regions far
        (fun other otherMember => low other (behind other otherMember))
        (fun other otherMember => high other (behind other otherMember))
      have built := inductionHypothesis regions pluggedContiguous pluggedLow pluggedHigh
      have emptied : Heap.empty plugged.start plugged.start_pos plugged.fits =
          Heap.empty target.start target.start_pos target.fits := Heap.ext start rfl
      rw [emptied] at built
      have released := plugged.release_regions
        (show plugged.regions = [] ++ target.filler region :: region :: back from regions)
      have short : ∀ other ∈ front, other.top platform < region.addr := fun other otherMember =>
        lt_of_le_of_lt ((first.retop le_rfl).within other otherMember).2.2 gap
      have waiting : Contiguous Region.addr (Region.top platform)
          (plugged.release ((target.filler region).payload platform)).start ([] ++ front) := by
        show Contiguous Region.addr (Region.top platform) plugged.start front
        rwa [start]
      obtain ⟨next, nextStart, nextRegions, leads⟩ := exists_filled front released waiting short
      have same : next = target := Heap.ext (nextStart.trans start) (nextRegions.trans split.symm)
      rw [same] at leads
      exact built.trans ((plugged.leadsTo_release _).trans leads)
    · -- No gap before the region: it waits with those in front of it.
      have moved : target.regions = (front ++ [region]) ++ back := by
        rw [split, List.append_assoc, List.singleton_append]
      exact inductionHypothesis moved
        (contiguous_append.mpr ⟨contiguous, touches.symm, trivial⟩) low high

/-- The empty heap leads to every attainable heap. -/
theorem Attainable.leadsTo {target : Heap platform} (attainable : target.Attainable) :
    (Heap.empty target.start target.start_pos target.fits).LeadsTo target := by
  rcases attainable.high with short | full
  · exact leadsTo_of_spread (List.nil_append _).symm trivial attainable.low short
  · have header : platform.headerSize + (platform.initialSize - platform.headerSize) =
        platform.initialSize := by
      have := platform.two_headers_lt_initialSize
      omega
    have chosen := (Heap.empty target.start target.start_pos target.fits).choose_of_empty rfl
      .firstFit (platform.headerSize + (platform.initialSize - platform.headerSize))
    rw [if_pos header.le] at chosen
    have leads := leadsTo_place chosen
    have same : Heap.place _ _ _ (Layout.admits_of_choose _ chosen) = target :=
      Heap.ext rfl full.symm
    rwa [same] at leads

/-- Every heap leads to every attainable heap in the same mapping. -/
theorem Attainable.leadsTo_of_start {target : Heap platform} (attainable : target.Attainable)
    (start : heap.start = target.start) : heap.LeadsTo target := by
  have emptied : Heap.empty heap.start heap.start_pos heap.fits =
      Heap.empty target.start target.start_pos target.fits := Heap.ext start rfl
  have drained := heap.leadsTo_empty
  rw [emptied] at drained
  exact drained.trans attainable.leadsTo

theorem start_alloc (heap : Heap platform) (strategy : AllocationStrategy)
    (environment : Environment) (size : Nat) :
    (heap.alloc strategy environment size).1.start = heap.start := by
  cases chosen : heap.choose strategy (platform.headerSize + size) with
  | none => rw [Heap.alloc_of_none chosen]
  | some room =>
    rw [Heap.alloc_of_some chosen]
    rfl

end Heap

/-! ### The reachable heaps -/

theorem TaskState.Step.mappedAt {task next : TaskState platform} {event : Event}
    (step : task.Step event next) {start : Nat} (mapped : task.MappedAt start) :
    next.MappedAt start := by
  obtain ⟨heap, held, rfl⟩ := mapped
  cases step with
  | alloc strategy before environment size grants =>
    obtain rfl : before = some heap := held
    exact ⟨_, rfl, heap.start_alloc strategy environment size⟩
  | free strategy before addr =>
    obtain rfl : before = heap := Option.some.inj held
    exact ⟨_, rfl, rfl⟩
  | switchStrategy strategy next before => exact ⟨heap, held, rfl⟩

/-- A task without a mapping, or with a mapping where an attainable heap lies, gets to that heap,
under any strategy. -/
theorem TaskState.exists_run_to (task : TaskState platform) {target : Heap platform}
    (attainable : target.Attainable)
    (start : ∀ heap, task.heap = some heap → heap.start = target.start)
    (strategy : AllocationStrategy) :
    ∃ events, Run TaskState.BoundedStep task events ⟨strategy, some target⟩ := by
  have switched : ∀ (held : Option (Heap platform)) (old new : AllocationStrategy),
      TaskState.BoundedStep (⟨old, held⟩ : TaskState platform)
        ⟨.switchStrategy new.value, 0, none⟩ ⟨new, held⟩ :=
    fun held old new => ⟨trivial, .switchStrategy old new held⟩
  obtain ⟨current, held⟩ := task
  cases held with
  | none =>
    have bounded : (Call.alloc target.environment 0).Bounded platform := by
      have := platform.two_headers_lt_initialSize
      have := platform.initialSize_lt_modulus
      show platform.headerSize + 0 < platform.modulus
      omega
    have first := TaskState.Step.alloc .firstFit none target.environment 0 target.grants
    obtain ⟨events, built⟩ := attainable.leadsTo_of_start
      (Heap.start_alloc target.grants.heap .firstFit target.environment 0)
    exact ⟨_, Run.cons (switched none current .firstFit) (Run.cons ⟨bounded, first⟩
      (run_append.mpr ⟨_, built, run_singleton.mpr (switched _ .firstFit strategy)⟩))⟩
  | some heap =>
    obtain ⟨events, built⟩ := attainable.leadsTo_of_start (start heap rfl)
    exact ⟨_, Run.cons (switched _ current .firstFit)
      (run_append.mpr ⟨_, built, run_singleton.mpr (switched _ .firstFit strategy)⟩)⟩

theorem TaskState.attainable_of_run {task next : TaskState platform} {events : List Event}
    (run : Run TaskState.BoundedStep task events next) (attainable : task.Attainable) :
    next.Attainable :=
  run.invariant attainable fun _ _ _ before step => step.2.attainable before

theorem TaskState.mappedAt_of_run {task next : TaskState platform} {events : List Event}
    (run : Run TaskState.BoundedStep task events next) {start : Nat}
    (mapped : task.MappedAt start) : next.MappedAt start :=
  run.along (fun state => state.MappedAt start) mapped
    fun _ _ _ _ _ _ _ step _ before => step.2.mappedAt before

/-- From every state of a task, calls lead to the heap, under any strategy, exactly when the heap
is attainable and lies in the mapping of the task, if it has one. -/
theorem reachable_iff_of_run {start kernel : Kernel} {events : List Event} (fresh : start.Fresh)
    (run : Run (LegalStep platform) start events kernel) (heap : Heap platform)
    (strategy : AllocationStrategy) :
    (∃ further after, Run (LegalStep platform) kernel further after ∧
        after.Models (⟨strategy, some heap⟩ : TaskState platform)) ↔
      heap.Attainable ∧ ∀ mm, kernel.currentMm = some mm → mm.start = heap.start := by
  obtain ⟨initial, initialModels⟩ := fresh.models platform
  obtain ⟨task, models⟩ := models_of_run fresh run
  have attained : task.Attainable := TaskState.attainable_of_run
    (initialModels.run_iff.mp ⟨kernel, run, models⟩) (by rintro _ ⟨⟩)
  constructor
  · rintro ⟨further, after, furtherRun, refined⟩
    have taskRun := models.run_iff.mp ⟨after, furtherRun, refined⟩
    refine ⟨TaskState.attainable_of_run taskRun attained heap rfl, fun mm mapped => ?_⟩
    obtain ⟨found, held, represents⟩ := models.2.heap mapped
    obtain ⟨last, lastHeld, same⟩ :=
      TaskState.mappedAt_of_run taskRun ⟨found, held, rfl⟩
    obtain rfl := Option.some.inj lastHeld
    rw [represents.start, same]
  · rintro ⟨attainable, sameStart⟩
    have inMapping : ∀ found, task.heap = some found → found.start = heap.start := by
      intro found held
      have holds := models.2
      rw [held] at holds
      obtain ⟨mm, mapped, represents⟩ := holds
      rw [← represents.start, sameStart mm mapped]
    obtain ⟨further, taskRun⟩ := task.exists_run_to attainable inMapping strategy
    obtain ⟨after, furtherRun, refined⟩ := models.run_iff.mpr taskRun
    exact ⟨further, after, furtherRun, refined⟩

/-- Two regions with gaps on every side. -/
def Heap.scattered : Heap Platform.i386 where
  start := 0x1000
  regions := [⟨0x100b, 5⟩, ⟨0x1100, 0⟩]
  start_pos := by decide
  fits := by decide
  packed := by decide
  payload_lt := by decide

theorem reachable_sample : ∃ after further last,
    Run (LegalStep Platform.i386) (Kernel.boot fun _ => 0)
        [⟨.alloc .secondPage 8, 0, some 0x1008⟩] after ∧
      Run (LegalStep Platform.i386) after further last ∧
        last.Models (⟨.bestFit, some Heap.scattered⟩ : TaskState Platform.i386) := by
  obtain ⟨after, run, mapped, _⟩ := exists_run_firstBlock
  have attainable : Heap.scattered.Attainable := ⟨by decide, Or.inl (by decide)⟩
  have start : ∀ mm, after.currentMm = some mm → mm.start = Heap.scattered.start := by
    intro mm found
    obtain rfl := Option.some.inj (mapped.symm.trans found)
    rfl
  obtain ⟨further, last, furtherRun, models⟩ := (reachable_iff_of_run (Kernel.fresh_boot _) run
    Heap.scattered .bestFit).mpr ⟨attainable, start⟩
  exact ⟨after, further, last, run, furtherRun, models⟩

end TsoAlloc
