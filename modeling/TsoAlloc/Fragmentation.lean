/-
This file finds how much memory must be free for a request to be certain of its gap. The
regions of a task cut the free bytes into one gap more than there are regions, so when
that many gaps of the size of the request cannot hold the free bytes, one gap is longer
and the request is met. No smaller amount suffices: for every number of regions and every
amount of free bytes up to that one, calls lead to a state with just so many regions and
bytes in which every gap is too short, whatever the strategy.
-/

import Mathlib.Algebra.Group.Action.Defs
import TsoAlloc.Reachability

namespace TsoAlloc

open Extents Transition

section

variable (platform : Platform)

/-- The list of the task has some number of regions, and its counter some number of bytes. -/
def Kernel.Holding (kernel : Kernel) (count free : Nat) : Prop :=
  ∃ mm regions, kernel.currentMm = some mm ∧
    Listed platform kernel.memory mm.firstRegion regions ∧ regions.length = count ∧ mm.free = free

end

variable {platform : Platform}

/-! ### Enough free bytes -/

/-- When the gaps cannot all be short, one is long. -/
theorem Layout.exists_longer (layout : Layout platform) {bytes : Nat}
    (enough : (layout.regions.length + 1) * bytes + layout.used < platform.initialSize) :
    ∃ room ∈ layout.gaps, bytes < room.length := by
  by_contra none
  have short : ∀ length ∈ layout.gaps.map Room.length, length ≤ bytes := by
    intro length member
    obtain ⟨room, gap, rfl⟩ := List.mem_map.mp member
    exact not_lt.mp fun longer => none ⟨room, gap, longer⟩
  have bound := List.sum_le_card_nsmul _ bytes short
  have filled := layout.sum_gaps_add_used
  rw [List.length_map, Layout.gaps, length_rooms, smul_eq_mul] at bound
  rw [Layout.gaps] at filled
  omega

/-! ### Free bytes in short gaps -/

/-- Between two bounds there is room for a region at the lower bound and any number behind it, so
that every gap behind one of them is short and the last one is not empty. The last region takes
the bytes that are to spare. -/
theorem exists_spaced (platform : Platform) {bytes : Nat} (bytes_pos : 0 < bytes) (extra : Nat)
    (count : Nat) {lo hi free : Nat} (left : 0 < free) (bound : free ≤ (count + 1) * bytes)
    (total : lo + (count + 1) * platform.headerSize + extra + free = hi) :
    ∃ size rest, rest.length = count ∧
      Packed Region.addr (Region.top platform) lo hi (⟨lo, size⟩ :: rest) ∧
      (∀ room ∈ rooms Region.addr (Region.top platform) (some ⟨lo, size⟩)
        ((⟨lo, size⟩ : Region).top platform) hi rest, room.length ≤ bytes) ∧
      (∀ region ∈ (⟨lo, size⟩ : Region) :: rest, region.top platform < hi) ∧
      (((⟨lo, size⟩ : Region) :: rest).map fun region => platform.headerSize + region.size).sum =
        (count + 1) * platform.headerSize + extra := by
  induction count generalizing lo free with
  | zero =>
    rw [Nat.zero_add, Nat.one_mul] at bound total
    have top : (⟨lo, extra⟩ : Region).top platform = hi - free := by
      unfold Region.top
      dsimp only
      omega
    refine ⟨extra, [], rfl, ⟨le_rfl, (Region.addr_lt_top platform _).le, ?_⟩, ?_, ?_, ?_⟩
    · show Region.top platform _ ≤ hi
      omega
    · intro room member
      rw [rooms, List.mem_singleton] at member
      rw [member, top]
      dsimp only
      omega
    · intro region member
      rw [List.mem_singleton.mp member]
      omega
    · rw [List.map_singleton, List.sum_singleton, Nat.zero_add, Nat.one_mul]
  | succ count inductionHypothesis =>
    rw [Nat.succ_mul] at bound total
    have split : (count + 1) * platform.headerSize + platform.headerSize =
        platform.headerSize + (count + 1) * platform.headerSize := Nat.add_comm _ _
    -- The gap behind the region at the lower bound leaves a byte for the last gap.
    obtain ⟨gap, short, kept, rest⟩ : ∃ gap, gap ≤ bytes ∧ gap < free ∧
        free - gap ≤ (count + 1) * bytes := by
      have one : bytes ≤ (count + 1) * bytes := Nat.le_mul_of_pos_left bytes (Nat.succ_pos count)
      rcases Nat.lt_or_ge bytes free with many | few
      · exact ⟨bytes, le_rfl, many, by omega⟩
      · exact ⟨free - 1, by omega, by omega, by omega⟩
    have top : (⟨lo, 0⟩ : Region).top platform = lo + platform.headerSize := rfl
    have remaining : lo + platform.headerSize + gap + (count + 1) * platform.headerSize + extra +
        (free - gap) = hi := by omega
    obtain ⟨size, others, length, packed, rooms, high, used⟩ :=
      inductionHypothesis (by omega) rest remaining
    refine ⟨0, ⟨lo + platform.headerSize + gap, size⟩ :: others, by rw [List.length_cons, length],
      ⟨le_rfl, (Region.addr_lt_top platform _).le, ?_, packed.2⟩, ?_, ?_, ?_⟩
    · rw [top]
      exact Nat.le_add_right _ _
    · intro room member
      rcases List.mem_cons.mp member with rfl | member
      · rw [top]
        dsimp only
        omega
      · exact rooms room member
    · intro region member
      rcases List.mem_cons.mp member with rfl | member
      · have inside := packed.le
        rw [top]
        omega
      · exact high region member
    · rw [List.map_cons, List.sum_cons, used, Nat.succ_mul (count + 1)]
      dsimp only
      omega

/-- A heap with some number of regions and some free bytes, all of whose gaps are short. -/
theorem Heap.exists_crowded {start : Nat} (start_pos : 0 < start)
    (fits : start + platform.initialSize ≤ platform.modulus) {bytes count free : Nat}
    (header : platform.headerSize ≤ bytes) (left : 0 < free)
    (feasible : free + (count + 1) * platform.headerSize ≤ platform.initialSize)
    (bound : free ≤ (count + 2) * bytes) :
    ∃ heap : Heap platform, heap.start = start ∧ heap.Attainable ∧
      heap.regions.length = count + 1 ∧ heap.freeBytes = free ∧
        ∀ room ∈ heap.gaps, room.length ≤ bytes := by
  have header_pos := platform.headerSize_pos
  rw [Nat.succ_mul] at bound
  -- The first gap is empty or has room for a header.
  obtain ⟨gap, aligned, short, kept, rest⟩ : ∃ gap, (gap = 0 ∨ platform.headerSize ≤ gap) ∧
      gap ≤ bytes ∧ gap < free ∧ free - gap ≤ (count + 1) * bytes := by
    have one : bytes ≤ (count + 1) * bytes := Nat.le_mul_of_pos_left bytes (Nat.succ_pos count)
    by_cases few : free ≤ (count + 1) * bytes
    · exact ⟨0, Or.inl rfl, by omega, left, by omega⟩
    · by_cases small : free - (count + 1) * bytes ≤ platform.headerSize
      · exact ⟨platform.headerSize, Or.inr le_rfl, header, by omega, by omega⟩
      · exact ⟨free - (count + 1) * bytes, Or.inr (by omega), by omega, by omega, by omega⟩
  have total : start + gap + (count + 1) * platform.headerSize +
      (platform.initialSize - free - (count + 1) * platform.headerSize) + (free - gap) =
        start + platform.initialSize := by omega
  obtain ⟨size, others, length, packed, rooms, high, used⟩ := exists_spaced platform
    (lt_of_lt_of_le header_pos header) _ count (by omega) rest total
  refine ⟨{
    start := start
    regions := ⟨start + gap, size⟩ :: others
    start_pos := start_pos
    fits := fits
    packed := ⟨Nat.le_add_right _ _, packed.2⟩
    payload_lt := fun region member =>
      lt_of_le_of_lt (region.payload_le_top platform) (high region member) },
    rfl, ⟨?_, Or.inl high⟩, by rw [List.length_cons, length], ?_, ?_⟩
  · intro region member
    rcases List.mem_cons.mp member with rfl | member
    · show start + gap = start ∨ start + platform.headerSize ≤ start + gap
      omega
    · have above := (packed.2.2.within region member).1
      right
      show start + platform.headerSize ≤ region.addr
      unfold Region.top at above
      dsimp only at above
      omega
  · show platform.initialSize - (List.map _ _).sum = free
    rw [used]
    omega
  · intro room member
    rcases List.mem_cons.mp member with rfl | member
    · show start + gap - start ≤ bytes
      omega
    · exact rooms room member

/-! ### The exact bound -/

/-- In every reachable state with some number of regions and some free bytes the request is met,
exactly when that many free bytes cannot be cut into short gaps. -/
theorem serves_always_iff {environment : Environment} (grants : environment.Grants platform)
    (strategy : AllocationStrategy) {count free size : Nat} (counted : 0 < count) (left : 0 < free)
    (feasible : free + count * platform.headerSize ≤ platform.initialSize)
    (fits : platform.headerSize + size < platform.modulus) :
    (∀ (start kernel : Kernel) (events : List Event), start.Fresh →
        Run (LegalStep platform) start events kernel → kernel.Follows strategy →
          kernel.Holding platform count free → kernel.Serves platform environment size) ↔
      (count + 1) * (platform.headerSize + size) < free := by
  obtain ⟨others, rfl⟩ := Nat.exists_eq_succ_of_ne_zero counted.ne'
  constructor
  · intro served
    by_contra short
    obtain ⟨heap, start, attainable, length, bytes, gaps⟩ := Heap.exists_crowded
      grants.start_pos grants.fits (Nat.le_add_right platform.headerSize size) left feasible
      (not_lt.mp short)
    have fresh := Kernel.fresh_boot fun _ => 0
    obtain ⟨events, kernel, run, models⟩ := (reachable_iff_of_run fresh (Run.nil _) heap
      strategy).mpr ⟨attainable, by rintro mm ⟨⟩⟩
    obtain ⟨mm, mapped, represents⟩ := models.2
    have holding : kernel.Holding platform (others + 1) free :=
      ⟨mm, heap.regions, mapped, represents.listed, length, represents.free.trans bytes⟩
    obtain ⟨room, admits⟩ := (models.serves_iff grants fits).mp
      (served _ kernel events fresh run models.1 holding)
    have gap := gaps room admits.1
    rcases admits.2 with longer | ⟨empty, _⟩
    · exact absurd gap (not_le.mpr longer)
    · have none : heap.regions = [] := empty
      rw [none] at length
      cases length
  · intro enough start kernel events fresh run follows holding
    obtain ⟨mm, regions, mapped, listed, length, bytes⟩ := holding
    obtain ⟨⟨current, held⟩, models⟩ := models_of_run fresh run
    obtain ⟨heap, rfl, represents⟩ := models.2.heap mapped
    obtain rfl := represents.listed.unique listed
    have free := represents.free
    unfold Heap.freeBytes at free
    have crowded : (heap.regions.length + 1) * (platform.headerSize + size) + heap.used <
        platform.initialSize := by
      rw [length]
      omega
    obtain ⟨room, gap, longer⟩ := heap.exists_longer crowded
    exact (models.serves_iff grants fits).mpr ⟨room, gap, Or.inl longer⟩

/-- With one region, 33 free bytes are certain to hold a block of 8 bytes, and 32 are not. -/
theorem serves_always_sample :
    (∀ (start kernel : Kernel) (events : List Event), start.Fresh →
        Run (LegalStep Platform.i386) start events kernel → kernel.Follows .bestFit →
          kernel.Holding Platform.i386 1 33 → kernel.Serves Platform.i386 .secondPage 8) ∧
      ¬ ∀ (start kernel : Kernel) (events : List Event), start.Fresh →
        Run (LegalStep Platform.i386) start events kernel → kernel.Follows .bestFit →
          kernel.Holding Platform.i386 1 32 → kernel.Serves Platform.i386 .secondPage 8 := by
  have grants : Environment.secondPage.Grants Platform.i386 := by decide
  constructor
  · exact (serves_always_iff grants .bestFit (by decide) (by decide) (by decide)
      (by decide)).mpr (by decide)
  · intro served
    exact absurd ((serves_always_iff grants .bestFit (by decide) (by decide) (by decide)
      (by decide)).mp served) (by decide)

end TsoAlloc
