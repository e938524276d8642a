/-
This file settles what `sys_tso_mm_free` does for its caller. The payload address of a live
region names it, since no two regions begin at one address. Freeing it takes just that
region out of the list, gives its bytes back to the counter, and joins the gap before it,
its own bytes and the gap behind it; any other address changes nothing. What the call
reports is another matter: a miss is reported by the exits inside the walk, but with a
single region the walk ends at its loop test and the call returns 0.
-/

import TsoAlloc.Placement

namespace TsoAlloc

open Extents Transition

section

variable (platform : Platform)

/-- A region was taken out of the list from between two halves. Its bytes went back to the
counter, and with the gaps on either side of it they make one gap. -/
structure Removed (mm freed : TsoMmMapping) (memory changed : ByteMemory) (front : List Region)
    (region : Region) (back : List Region) : Prop where
  before : Listed platform memory mm.firstRegion (front ++ region :: back)
  after : Listed platform changed freed.firstRegion (front ++ back)
  range : freed.start = mm.start ∧ freed.size = mm.size
  counter : freed.free = mm.free + (platform.headerSize + region.size)
  gaps : ∃ lower upper,
    gapsOf platform mm (front ++ region :: back) =
        lower ++ gapAt platform mm front (region :: back) ::
          gapAt platform mm (front ++ [region]) back :: upper ∧
      gapsOf platform freed (front ++ back) = lower ++ gapAt platform freed front back :: upper
  base : gapBase platform freed front = gapBase platform mm front
  joined : gapLength platform freed front back = gapLength platform mm front (region :: back) +
    (platform.headerSize + region.size) + gapLength platform mm (front ++ [region]) back

/-- A free returns 0 and unlinks the region that has the address, or it returns -1 when no region
has it. -/
def Kernel.ReportsTruthfully (kernel : Kernel) (addr : Nat) : Prop :=
  ∃ fuel outcome mm regions, sysTsoMmFree platform fuel addr kernel = .ok outcome ∧
    kernel.currentMm = some mm ∧ Listed platform kernel.memory mm.firstRegion regions ∧
      ((∃ region ∈ regions, region.payload platform = addr) → outcome.ret = 0 ∧
        ∃ freed, outcome.kernel.currentMm = some freed ∧
          Listed platform outcome.kernel.memory freed.firstRegion
            (regions.filter fun region => region.payload platform ≠ addr)) ∧
      ((∀ region ∈ regions, region.payload platform ≠ addr) → outcome.ret = -1)

/-- There is exactly one region, and the address is not that of its payload. -/
def Kernel.MissesLoneRegion (kernel : Kernel) (addr : Nat) : Prop :=
  ∃ mm region, kernel.currentMm = some mm ∧
    Listed platform kernel.memory mm.firstRegion [region] ∧ region.payload platform ≠ addr

end

variable {platform : Platform} {kernel : Kernel} {mm : TsoMmMapping} {heap : Heap platform}

/-! ### What a free does -/

theorem Heap.count_payload_le (heap : Heap platform) (addr : Nat) :
    (heap.regions.map (Region.payload platform)).count addr ≤ 1 := by
  have once : heap.regions.Nodup := List.Nodup.of_map _ heap.nodup_addr
  have distinct : (heap.regions.map (Region.payload platform)).Nodup :=
    once.map_on fun first firstMember second secondMember =>
      heap.payload_injective firstMember secondMember
  exact List.nodup_iff_count_le_one.mp distinct addr

/-- The room between the neighbours of a region is the gaps on either side and the region. -/
theorem Layout.length_join (layout : Layout platform) {front back : List Region} {region : Region}
    (split : layout.regions = front ++ region :: back) :
    roomTop Region.addr layout.stop back - roomBase (Region.top platform) layout.start front =
      region.addr - roomBase (Region.top platform) layout.start front +
        (platform.headerSize + region.size) +
          (roomTop Region.addr layout.stop back - region.top platform) := by
  have splitBehind : layout.regions = (front ++ [region]) ++ back := by
    rw [split, List.append_assoc, List.singleton_append]
  have below : roomBase (Region.top platform) layout.start front ≤ region.addr :=
    (layout.room_within split).2.1
  have above := (layout.room_within splitBehind).2.1
  rw [roomBase_append_singleton] at above
  have top : region.top platform = region.addr + (platform.headerSize + region.size) := rfl
  omega

/-- Taking a region out of the list joins the gaps on either side of it. -/
theorem gapsOf_remove (mm : TsoMmMapping) (front : List Region) (region : Region)
    (back : List Region) :
    ∃ lower upper,
      gapsOf platform mm (front ++ region :: back) =
          lower ++ gapAt platform mm front (region :: back) ::
            gapAt platform mm (front ++ [region]) back :: upper ∧
        gapsOf platform mm (front ++ back) = lower ++ gapAt platform mm front back :: upper := by
  obtain ⟨lower, upper, whole, joined⟩ := @rooms_remove Region Region.addr (Region.top platform)
    mm.start (mm.start + mm.size) none front back region
  refine ⟨lower, upper, ?_, ?_⟩
  · simp only [gapsOf, gapAt, gapLength, gapTop, gapBase, whole, Option.or_none,
      List.getLast?_concat, roomBase_append_singleton]
    rfl
  · simp only [gapsOf, gapAt, gapLength, gapTop, gapBase, joined, Option.or_none]

theorem gaps_congr {freed : TsoMmMapping} (range : freed.start = mm.start ∧ freed.size = mm.size)
    (regions front back : List Region) :
    gapsOf platform freed regions = gapsOf platform mm regions ∧
      gapAt platform freed front back = gapAt platform mm front back := by
  simp only [gapsOf, gapAt, gapLength, gapTop, gapBase, range.1, range.2, and_self]

/-- The record and the memory from before and after a release have the region removed. -/
theorem Represents.removed {memory changed : ByteMemory} {freed : TsoMmMapping}
    (represents : Represents mm memory heap) {front back : List Region} {region : Region}
    (split : heap.regions = front ++ region :: back)
    (released : Represents freed changed (heap.release (region.payload platform))) :
    Removed platform mm freed memory changed front region back := by
  have rest := heap.release_regions split
  have range : freed.start = mm.start ∧ freed.size = mm.size :=
    ⟨released.start.trans represents.start.symm, released.size.trans represents.size.symm⟩
  obtain ⟨sameGaps, sameGap⟩ := @gaps_congr platform mm freed range (front ++ back) front back
  obtain ⟨lower, upper, whole, joined⟩ := @gapsOf_remove platform mm front region back
  exact {
    before := split ▸ represents.listed
    after := rest ▸ released.listed
    range := range
    counter := by
      have used := heap.used_le
      have returned := heap.used_release split
      rw [released.free, represents.free]
      unfold Heap.freeBytes
      omega
    gaps := ⟨lower, upper, whole, by rw [sameGaps, sameGap, joined]⟩
    base := congrArg Room.base sameGap
    joined := by
      have length : gapLength platform freed front back = gapLength platform mm front back :=
        congrArg Room.length sameGap
      rw [length]
      simp only [represents.toDescribes.gapLength_eq, roomBase_append_singleton]
      exact heap.length_join split }

/-- A free of an address that no region has changes nothing. It reports the miss unless there is
exactly one region. -/
theorem free_unknown {fuel addr : Nat} (mapped : kernel.currentMm = some mm)
    (represents : Represents mm kernel.memory heap)
    (unknown : ∀ region ∈ heap.regions, region.payload platform ≠ addr)
    (enough : heap.regions.length ≤ fuel) :
    sysTsoMmFree platform fuel addr kernel =
      .ok (unchanged kernel (if heap.regions.length = 1 then 0 else -1)) :=
  free_miss mapped represents.toDescribes
    (fun region member => mt (heap.matches_iff member).mp (unknown region member)) enough

/-- A free of the payload address of a region returns 0 and releases the region. -/
theorem free_known {fuel addr : Nat} (mapped : kernel.currentMm = some mm)
    (represents : Represents mm kernel.memory heap) (has : heap.Has addr)
    (enough : heap.regions.length ≤ fuel) :
    ∃ outcome freed, sysTsoMmFree platform fuel addr kernel = .ok outcome ∧ outcome.ret = 0 ∧
      outcome.kernel.currentMm = some freed ∧
        Represents freed outcome.kernel.memory (heap.release addr) := by
  obtain ⟨outcome, returned, realizes⟩ := free_realizes mapped represents addr enough
  obtain ⟨freed, freedMapped, released⟩ := realizes.represents
  have answer : outcome.ret = (heap.free addr).2.ret := congrArg Answer.ret realizes.answer
  have zero : (heap.free addr).2.ret = 0 := if_pos (Or.inl has)
  exact ⟨outcome, freed, returned, answer.trans zero, freedMapped, released⟩

/-- In every state with a mapping that a run of legal calls reaches, at most one region has a given
payload address. A free of that address removes the region; a free of an address that no region
has leaves the whole state as it is. -/
theorem removed_of_run {start after : Kernel} {events : List Event} (fresh : start.Fresh)
    (run : Run (LegalStep platform) start events after) {mm : TsoMmMapping}
    (mapped : after.currentMm = some mm) (addr : Nat) :
    ∃ regions fuel outcome, Listed platform after.memory mm.firstRegion regions ∧
      (regions.map (Region.payload platform)).count addr ≤ 1 ∧
        sysTsoMmFree platform fuel addr after = .ok outcome ∧
          (∀ front region back, regions = front ++ region :: back →
            region.payload platform = addr → ∃ freed, outcome.kernel.currentMm = some freed ∧
              Removed platform mm freed after.memory outcome.kernel.memory front region back) ∧
          ((∀ region ∈ regions, region.payload platform ≠ addr) → outcome.kernel = after) := by
  obtain ⟨task, models⟩ := models_of_run fresh run
  obtain ⟨heap, _, represents⟩ := models.represents mapped
  by_cases has : heap.Has addr
  · obtain ⟨outcome, freed, returned, _, freedMapped, released⟩ :=
      free_known mapped represents has le_rfl
    refine ⟨_, _, outcome, represents.listed, heap.count_payload_le addr, returned, ?_, ?_⟩
    · rintro front region back split rfl
      exact ⟨freed, freedMapped, represents.removed split released⟩
    · intro unknown
      obtain ⟨region, member, same⟩ := has
      exact absurd same (unknown region member)
  · have unknown : ∀ region ∈ heap.regions, region.payload platform ≠ addr :=
      fun region member same => has ⟨region, member, same⟩
    refine ⟨_, _, _, represents.listed, heap.count_payload_le addr,
      free_unknown mapped represents unknown le_rfl, ?_, fun _ => rfl⟩
    intro front region back split same
    refine absurd same (unknown region ?_)
    rw [split]
    exact List.mem_append_cons_self

/-- With three blocks the middle one is freed, which joins the gaps on both sides of it. -/
theorem removed_sample : ∃ after fuel outcome freed,
    Run (LegalStep Platform.i386) (Kernel.boot fun _ => 0) threeBlocks after ∧
      sysTsoMmFree Platform.i386 fuel 0x1030 after = .ok outcome ∧
        outcome.kernel.currentMm = some freed ∧ freed.free = 32736 ∧
          Listed Platform.i386 outcome.kernel.memory freed.firstRegion
              [⟨0x1000, 8⟩, ⟨0x1048, 8⟩] ∧
            gapLength Platform.i386 freed [⟨0x1000, 8⟩] [⟨0x1048, 8⟩] = 56 := by
  obtain ⟨after, run, mapped, listed⟩ := exists_run_threeBlocks
  obtain ⟨regions, fuel, outcome, otherListed, _, returned, removes, _⟩ :=
    removed_of_run (Kernel.fresh_boot _) run mapped 0x1030
  obtain rfl := listed.unique otherListed
  obtain ⟨freed, freedMapped, removed⟩ :=
    removes [⟨0x1000, 8⟩] ⟨0x1028, 24⟩ [⟨0x1048, 8⟩] rfl (by decide)
  exact ⟨after, fuel, outcome, freed, run, returned, freedMapped, removed.counter,
    removed.after, removed.joined.trans (by decide)⟩

/-! ### What a free reports -/

/-- In a state that models a task with a mapping, a free reports truthfully unless it misses the
only region. -/
theorem Kernel.Models.reportsTruthfully_iff {task : TaskState platform}
    (models : kernel.Models task) (mapped : kernel.currentMm = some mm) (addr : Nat) :
    kernel.ReportsTruthfully platform addr ↔ ¬ kernel.MissesLoneRegion platform addr := by
  obtain ⟨heap, _, represents⟩ := models.represents mapped
  constructor
  · rintro ⟨fuel, outcome, other, regions, returned, otherMapped, listed, _, miss⟩
      ⟨lone, region, loneMapped, loneListed, different⟩
    obtain rfl := Option.some.inj (mapped.symm.trans otherMapped)
    obtain rfl := Option.some.inj (mapped.symm.trans loneMapped)
    have one := represents.listed.unique loneListed
    obtain rfl := listed.unique loneListed
    have unknown : ∀ region ∈ heap.regions, region.payload platform ≠ addr := by
      rw [one]
      intro other member
      rwa [List.mem_singleton.mp member]
    have missed := free_unknown mapped represents unknown le_rfl
    obtain rfl := (sysTsoMmFree_stable addr kernel).unique returned missed
    have length : heap.regions.length = 1 := by
      rw [one]
      rfl
    rw [one] at unknown
    have wrong : (if heap.regions.length = 1 then 0 else -1 : Int) = -1 := miss unknown
    rw [if_pos length] at wrong
    cases wrong
  · intro spared
    by_cases has : heap.Has addr
    · obtain ⟨outcome, freed, returned, zero, freedMapped, released⟩ :=
        free_known mapped represents has le_rfl
      refine ⟨_, outcome, mm, heap.regions, returned, mapped, represents.listed,
        fun _ => ⟨zero, freed, freedMapped, released.listed⟩, ?_⟩
      intro unknown
      obtain ⟨region, member, same⟩ := has
      exact absurd same (unknown region member)
    · have unknown : ∀ region ∈ heap.regions, region.payload platform ≠ addr :=
        fun region member same => has ⟨region, member, same⟩
      refine ⟨_, _, mm, heap.regions, free_unknown mapped represents unknown le_rfl, mapped,
        represents.listed, fun known => absurd known has, fun _ => if_neg ?_⟩
      intro length
      obtain ⟨region, one⟩ := List.length_eq_one_iff.mp length
      refine spared ⟨mm, region, mapped, one ▸ represents.listed, unknown region ?_⟩
      rw [one]
      exact List.mem_singleton_self _

/-- In every state with a mapping that a run of legal calls reaches, a free of any address reports
truthfully if and only if it is not so that there is exactly one region and the address is not
that of its payload. -/
theorem reportsTruthfully_iff_of_run {start after : Kernel} {events : List Event}
    (fresh : start.Fresh) (run : Run (LegalStep platform) start events after)
    (mapped : after.currentMm ≠ none) (addr : Nat) :
    after.ReportsTruthfully platform addr ↔ ¬ after.MissesLoneRegion platform addr := by
  obtain ⟨task, models⟩ := models_of_run fresh run
  obtain ⟨mm, found⟩ := Option.ne_none_iff_exists'.mp mapped
  exact models.reportsTruthfully_iff found addr

theorem reportsTruthfully_sample : ∃ after,
    Run (LegalStep Platform.i386) (Kernel.boot fun _ => 0)
        [⟨.alloc .secondPage 8, 0, some 0x1008⟩] after ∧
      after.ReportsTruthfully Platform.i386 0x1008 := by
  obtain ⟨after, run, mapped, listed⟩ := exists_run_firstBlock
  have found : after.currentMm ≠ none := Option.ne_none_iff_exists'.mpr ⟨_, mapped⟩
  refine ⟨after, run, (reportsTruthfully_iff_of_run (Kernel.fresh_boot _) run found _).mpr ?_⟩
  rintro ⟨mm, region, otherMapped, otherListed, different⟩
  obtain rfl := Option.some.inj (mapped.symm.trans otherMapped)
  obtain rfl := List.singleton_inj.mp (listed.unique otherListed)
  exact different rfl

/-- With one block, a free of an address in the middle of nowhere returns 0. -/
theorem not_reportsTruthfully_lone : ¬ ∀ (start after : Kernel) (events : List Event),
    start.Fresh → Run (LegalStep Platform.i386) start events after → after.currentMm ≠ none →
      ∀ addr, after.ReportsTruthfully Platform.i386 addr := by
  intro always
  obtain ⟨after, run, mapped, listed⟩ := exists_run_firstBlock
  have found : after.currentMm ≠ none := Option.ne_none_iff_exists'.mpr ⟨_, mapped⟩
  obtain ⟨task, models⟩ := models_of_run (Kernel.fresh_boot _) run
  refine (models.reportsTruthfully_iff mapped 0x2000).mp
    (always _ after _ (Kernel.fresh_boot _) run found 0x2000) ?_
  exact ⟨_, _, mapped, listed, by decide⟩

end TsoAlloc
