/-
This file treats an allocation during which other tasks change `current_strategy`.
`tso_mm_get_fit` reads the variable once to seed `best_size` and again at every gap that
is large enough. Whatever the reads find, the search settles on a gap that it has passed,
with one exception: when every read at a large enough gap rules that gap out against the
seed, no gap is recorded and the region goes to the start of the mapping. This happens
when the seed is that of `BEST_FIT` and the gaps are compared as under `WORST_FIT`, or
the other way round.
-/

import TsoAlloc.Placement

namespace TsoAlloc

open Extents Transition

/-- Every read at a gap of the list, from some read on, rules the gap out against the seed, and
none returns it. -/
def Overlooks (observed : Nat → BitVec 32) (seed : Nat) : Nat → List (Room Region) → Prop
  | _, [] => True
  | read, room :: rest =>
    (AllocationStrategy.ofValue (observed read) ≠ some .firstFit ∧
      isBest (AllocationStrategy.ofValue (observed read)) room.length seed = false) ∧
        Overlooks observed seed (read + 1) rest

variable {platform : Platform} {kernel : Kernel} {mm : TsoMmMapping}

/-! ### The search under any reads -/

/-- Once a gap is remembered, the search settles on that gap or on a later one. -/
theorem scanRooms_settles {observed : Nat → BitVec 32} {bytes : Nat} {gaps : List (Room Region)}
    {Good : Room Region → Prop} (good : ∀ room ∈ gaps, Good room) {choice : Choice}
    (state : choice.state = .ok)
    (remembered : ∃ room, Good room ∧ choice.bestMatch = pointerTo room.behind) :
    ∃ room, Good room ∧ scanRooms observed bytes choice gaps = settle room := by
  induction gaps generalizing choice with
  | nil =>
    obtain ⟨room, goodRoom, bestMatch⟩ := remembered
    refine ⟨room, goodRoom, ?_⟩
    rw [scanRooms, Choice.leave, bestMatch, state, settle]
    simp only [true_and]
  | cons room rest inductionHypothesis =>
    have goodRest : ∀ other ∈ rest, Good other :=
      fun other member => good other (List.mem_cons_of_mem _ member)
    have goodRoom := good room List.mem_cons_self
    unfold scanRooms
    split
    · split
      · exact ⟨room, goodRoom, rfl⟩
      · refine inductionHypothesis goodRest rfl ?_
        simp only [Choice.consider]
        split
        · exact ⟨room, goodRoom, rfl⟩
        · exact remembered
    · exact inductionHypothesis goodRest state remembered

/-- A search that overlooks no gap settles on one. -/
theorem scanRooms_of_not_overlooks {observed : Nat → BitVec 32} {bytes : Nat}
    {gaps : List (Room Region)} (large : ∀ room ∈ gaps, bytes < room.length)
    {Good : Room Region → Prop} (good : ∀ room ∈ gaps, Good room) {choice : Choice}
    (noticed : ¬ Overlooks observed choice.bestSize choice.reads gaps) :
    ∃ room, Good room ∧ scanRooms observed bytes choice gaps = settle room := by
  induction gaps generalizing choice with
  | nil => exact absurd trivial noticed
  | cons room rest inductionHypothesis =>
    have goodRest : ∀ other ∈ rest, Good other :=
      fun other member => good other (List.mem_cons_of_mem _ member)
    have goodRoom := good room List.mem_cons_self
    have largeRest : ∀ other ∈ rest, bytes < other.length :=
      fun other member => large other (List.mem_cons_of_mem _ member)
    rw [scanRooms, if_pos (large room List.mem_cons_self)]
    split
    · exact ⟨room, goodRoom, rfl⟩
    rename_i notFirst
    cases best : isBest (AllocationStrategy.ofValue (observed choice.reads)) room.length
        choice.bestSize with
    | true =>
      refine scanRooms_settles goodRest rfl ⟨room, goodRoom, ?_⟩
      simp only [Choice.consider, best, if_true]
    | false =>
      refine inductionHypothesis largeRest goodRest fun overlooks => noticed ⟨⟨notFirst, best⟩, ?_⟩
      simp only [Choice.consider, best, Bool.false_eq_true, if_false] at overlooks
      exact overlooks

/-- A search that overlooks every gap reports the start of the mapping. -/
theorem scanRooms_of_overlooks {observed : Nat → BitVec 32} {bytes : Nat}
    {gaps : List (Room Region)} (large : ∀ room ∈ gaps, bytes < room.length) {choice : Choice}
    (nothing : choice.bestMatch = 0) (passed : gaps ≠ [] ∨ choice.state = .ok)
    (overlooks : Overlooks observed choice.bestSize choice.reads gaps) :
    scanRooms observed bytes choice gaps = (0, .start) := by
  induction gaps generalizing choice with
  | nil =>
    have state := passed.resolve_left (not_not.mpr rfl)
    rw [scanRooms, Choice.leave, nothing, state]
    rfl
  | cons room rest inductionHypothesis =>
    obtain ⟨⟨notFirst, ruledOut⟩, overlooksRest⟩ := overlooks
    rw [scanRooms, if_pos (large room List.mem_cons_self), if_neg notFirst]
    refine inductionHypothesis (fun other member => large other (List.mem_cons_of_mem _ member))
      ?_ (Or.inr rfl) ?_
    · simp only [Choice.consider, ruledOut, Bool.false_eq_true, if_false]
      exact nothing
    · simp only [Choice.consider, ruledOut, Bool.false_eq_true, if_false]
      exact overlooksRest

/-! ### An allocation under any reads -/

/-- The gap before the first region. -/
def Layout.startGap (layout : Layout platform) : Room Region :=
  ⟨none, layout.start, roomTop Region.addr layout.stop layout.regions - layout.start⟩

theorem Layout.startGap_mem (layout : Layout platform) : layout.startGap ∈ layout.gaps :=
  layout.mem_gaps.mpr ⟨[], layout.regions, rfl, rfl⟩

/-- Over a list with regions the search is the loop over the gaps that are large enough. -/
theorem tsoMmGetFit_gapsAbove {layout : Layout platform}
    (describes : Describes mm kernel.memory layout) {fuel size : Nat} (observed : Nat → BitVec 32)
    (nonempty : layout.regions ≠ []) (enough : layout.regions.length < fuel) :
    tsoMmGetFit platform fuel observed mm kernel.memory size .noFit =
      .ok (scanRooms observed (regionSize platform size)
        (Choice.init platform observed mm .noFit)
        (layout.gapsAbove (regionSize platform size))) := by
  rw [tsoMmGetFit_eq layout .noFit describes.start describes.size describes.listed enough,
    if_neg nonempty, scanRooms_filter]
  rfl

theorem tsoMmGetFit_of_no_gap {layout : Layout platform}
    (describes : Describes mm kernel.memory layout) {fuel size : Nat} (observed : Nat → BitVec 32)
    (nonempty : layout.regions ≠ []) (enough : layout.regions.length < fuel)
    (noGap : layout.gapsAbove (regionSize platform size) = []) :
    tsoMmGetFit platform fuel observed mm kernel.memory size .noFit = .ok (settleOn none) := by
  rw [tsoMmGetFit_gapsAbove describes observed nonempty enough, noGap]
  rfl

/-- When every large enough gap is overlooked, the search reports the start of the mapping. -/
theorem tsoMmGetFit_of_overlooks {layout : Layout platform}
    (describes : Describes mm kernel.memory layout) {fuel size : Nat} {observed : Nat → BitVec 32}
    (nonempty : layout.regions ≠ []) (enough : layout.regions.length < fuel)
    (gapped : layout.gapsAbove (regionSize platform size) ≠ [])
    (overlooks : Overlooks observed (Choice.init platform observed mm .noFit).bestSize 1
      (layout.gapsAbove (regionSize platform size))) :
    tsoMmGetFit platform fuel observed mm kernel.memory size .noFit =
      .ok (settleOn (some layout.startGap)) := by
  have large : ∀ room ∈ layout.gapsAbove (regionSize platform size),
      regionSize platform size < room.length := fun room member =>
    (layout.mem_gapsAbove.mp member).2
  rw [tsoMmGetFit_gapsAbove describes observed nonempty enough,
    scanRooms_of_overlooks large rfl (Or.inl gapped) overlooks]
  rfl

/-- Otherwise the search settles on a large enough gap. -/
theorem tsoMmGetFit_of_not_overlooks {layout : Layout platform}
    (describes : Describes mm kernel.memory layout) {fuel size : Nat} {observed : Nat → BitVec 32}
    (nonempty : layout.regions ≠ []) (enough : layout.regions.length < fuel)
    (noticed : ¬ Overlooks observed (Choice.init platform observed mm .noFit).bestSize 1
      (layout.gapsAbove (regionSize platform size))) :
    ∃ room ∈ layout.gapsAbove (regionSize platform size),
      tsoMmGetFit platform fuel observed mm kernel.memory size .noFit =
        .ok (settleOn (some room)) := by
  have large : ∀ room ∈ layout.gapsAbove (regionSize platform size),
      regionSize platform size < room.length := fun room member =>
    (layout.mem_gapsAbove.mp member).2
  obtain ⟨room, member, settled⟩ := scanRooms_of_not_overlooks large (fun room member => member)
    noticed
  refine ⟨room, member, ?_⟩
  rw [tsoMmGetFit_gapsAbove describes observed nonempty enough, settled]
  rfl

theorem Describes.nextOf_start {layout : Layout platform}
    (describes : Describes mm kernel.memory layout) (size : Nat) :
    nextOf platform (placedMemory platform kernel.memory mm.firstRegion size layout.startGap)
      layout.start = mm.firstRegion :=
  nextOf_writeHeader (layout.first_lt describes.listed)

/-- A region put at the start of a mapping that has regions is linked in no other gap than the
one at the start. -/
theorem Describes.linkedAtStart {layout : Layout platform}
    (describes : Describes mm kernel.memory layout) {size : Nat} {front back : List Region}
    (linked : LinkedInGap platform size mm (placedMapping platform mm size layout.startGap)
      kernel.memory (placedMemory platform kernel.memory mm.firstRegion size layout.startGap)
      front back) : front = [] := by
  cases front with
  | nil => rfl
  | cons region front =>
    obtain ⟨first, _, _, _⟩ := listed_cons.mp linked.before
    obtain ⟨start, valid, _, tail⟩ := listed_cons.mp linked.after
    have atStart : layout.start = region.addr := start
    have itself : nextOf platform
        (placedMemory platform kernel.memory mm.firstRegion size layout.startGap) layout.start =
          layout.start := (describes.nextOf_start size).trans (first.trans atStart.symm)
    have startValid : layout.start ≠ 0 := atStart.symm ▸ valid
    exact absurd linked.after (not_listed_of_nextOf_self startValid itself)

/-! ### Reads of the three strategies -/

/-- The reads at the first large enough gaps rule each of them out: they all find `WORST_FIT` when
the seed was that of `BEST_FIT`, and `BEST_FIT` when it was not. -/
def Misled (observed : Nat → AllocationStrategy) (gaps : Nat) : Prop :=
  ∀ read, 1 ≤ read → read ≤ gaps →
    observed read = if observed 0 = .bestFit then .worstFit else .bestFit

/-- The values that reads of the three strategies find. -/
def valuesOf (observed : Nat → AllocationStrategy) : Nat → BitVec 32 :=
  fun read => (observed read).value

/-- A gap is ruled out against the seed exactly by the strategy that compares the other way. -/
theorem ruledOut_iff {observed : Nat → AllocationStrategy} (mapped : mm.size = platform.initialSize)
    {length : Nat} (nonempty : 0 < length) (short : length ≤ platform.initialSize)
    (strategy : AllocationStrategy) :
    (some strategy ≠ some .firstFit ∧
      isBest (some strategy) length
        (Choice.init platform (valuesOf observed) mm .noFit).bestSize = false) ↔
      strategy = if observed 0 = .bestFit then .worstFit else .bestFit := by
  have seed : (Choice.init platform (valuesOf observed) mm .noFit).bestSize =
      if observed 0 = .bestFit then platform.initialSize + 1 else 0 := by
    unfold Choice.init valuesOf
    rw [ofValue_value, mapped, Platform.add_of_lt platform.initialSize_lt_modulus]
    cases observed 0 <;> rfl
  rw [seed]
  by_cases best : observed 0 = .bestFit
  · rw [if_pos best, if_pos best]
    cases strategy with
    | firstFit => simp
    | bestFit =>
      simp only [isBest, decide_eq_false_iff_not]
      exact ⟨fun both => absurd (Nat.lt_succ_of_le short) both.2, fun same => by cases same⟩
    | worstFit =>
      simp only [isBest, decide_eq_false_iff_not]
      exact ⟨fun _ => trivial, fun _ => ⟨by decide, by omega⟩⟩
  · rw [if_neg best, if_neg best]
    cases strategy with
    | firstFit => simp
    | bestFit =>
      simp only [isBest, decide_eq_false_iff_not]
      exact ⟨fun _ => trivial, fun _ => ⟨by decide, Nat.not_lt_zero _⟩⟩
    | worstFit =>
      simp only [isBest, decide_eq_false_iff_not]
      exact ⟨fun both => absurd nonempty both.2, fun same => by cases same⟩

/-- If one strategy alone rules the gaps out, they are overlooked exactly when every read at one
of them finds it. -/
theorem overlooks_iff {observed : Nat → AllocationStrategy} {seed : Nat}
    {loser : AllocationStrategy} {gaps : List (Room Region)}
    (ruledOut : ∀ room ∈ gaps, ∀ strategy, (some strategy ≠ some .firstFit ∧
      isBest (some strategy) room.length seed = false) ↔ strategy = loser) (first : Nat) :
    Overlooks (valuesOf observed) seed first gaps ↔
      ∀ read, first ≤ read → read < first + gaps.length → observed read = loser := by
  induction gaps generalizing first with
  | nil =>
    refine ⟨fun _ read low high => ?_, fun _ => trivial⟩
    rw [List.length_nil] at high
    omega
  | cons room rest inductionHypothesis =>
    have here : (AllocationStrategy.ofValue (valuesOf observed first) ≠ some .firstFit ∧
        isBest (AllocationStrategy.ofValue (valuesOf observed first)) room.length seed = false) ↔
          observed first = loser := by
      rw [valuesOf, ofValue_value]
      exact ruledOut room List.mem_cons_self _
    rw [Overlooks, here,
      inductionHypothesis (fun other member => ruledOut other (List.mem_cons_of_mem _ member))]
    rw [List.length_cons]
    constructor
    · rintro ⟨atFirst, behind⟩ read low high
      rcases Nat.eq_or_lt_of_le low with rfl | later
      · exact atFirst
      · exact behind read later (by omega)
    · intro all
      exact ⟨all first le_rfl (by omega), fun read low high => all read (by omega) (by omega)⟩

/-- Reads of the three strategies overlook some gaps exactly when they are misled. -/
theorem overlooks_iff_misled {observed : Nat → AllocationStrategy}
    (mapped : mm.size = platform.initialSize) {gaps : List (Room Region)}
    (proper : ∀ room ∈ gaps, 0 < room.length ∧ room.length ≤ platform.initialSize) :
    Overlooks (valuesOf observed)
        (Choice.init platform (valuesOf observed) mm .noFit).bestSize 1 gaps ↔
      Misled observed gaps.length := by
  rw [overlooks_iff fun room member strategy =>
    ruledOut_iff mapped (proper room member).1 (proper room member).2 strategy]
  refine forall_congr' fun read => forall_congr' fun _ => ?_
  rw [Nat.add_comm, Nat.lt_succ_iff]

/-! ### An allocation with changing strategies -/

section

variable (platform : Platform)

/-- The call misses every gap: there are regions, gaps pass the size test but not the one before
the first region, and the reads at those that pass are misled. -/
def MissesGaps (kernel : Kernel) (size : Nat) (observed : Nat → AllocationStrategy) : Prop :=
  ∃ mm regions, kernel.currentMm = some mm ∧
    Listed platform kernel.memory mm.firstRegion regions ∧ regions ≠ [] ∧
      gapLength platform mm [] regions ≤ regionSize platform size ∧
        (∃ room ∈ gapsOf platform mm regions, regionSize platform size < room.length) ∧
          Misled observed ((gapsOf platform mm regions).countP fun room =>
            regionSize platform size < room.length)

/-- What an allocation owes its caller whatever it reads: it returns -1 and changes nothing, or it
links the region in a gap that passed the size test, without overlap. -/
def KeepsApart (kernel : Kernel) (environment : Environment) (size : Nat)
    (observed : Nat → BitVec 32) : Prop :=
  ∃ fuel outcome mm,
    sysTsoMmAllocObserving platform fuel observed environment size kernel = .ok outcome ∧
      kernel.Uses platform environment mm ∧
        ((outcome.ret = -1 ∧ outcome.kernel = { kernel with currentMm := some mm }) ∨
          (outcome.ret = 0 ∧ ∃ placed front back, outcome.kernel.currentMm = some placed ∧
            LinkedInGap platform size mm placed kernel.memory outcome.kernel.memory front back ∧
              PassesTest platform size mm front back))

end

/-- A state that holds a heap misses every gap exactly when its search overlooks them and the gap
at the start is too short. -/
theorem missesGaps_iff {heap : Heap platform} (mapped : kernel.currentMm = some mm)
    (represents : Represents mm kernel.memory heap) (nonempty : heap.regions ≠ []) {size : Nat}
    (observed : Nat → AllocationStrategy) :
    MissesGaps platform kernel size observed ↔
      heap.startGap.length ≤ regionSize platform size ∧
        heap.gapsAbove (regionSize platform size) ≠ [] ∧
          Overlooks (valuesOf observed)
            (Choice.init platform (valuesOf observed) mm .noFit).bestSize 1
            (heap.gapsAbove (regionSize platform size)) := by
  have gaps : gapsOf platform mm heap.regions = heap.gaps := by
    rw [gapsOf, represents.start, represents.size]
    rfl
  have startLength : gapLength platform mm [] heap.regions = heap.startGap.length := by
    rw [gapLength, gapTop, gapBase, represents.start, represents.size]
    rfl
  have proper : ∀ room ∈ heap.gapsAbove (regionSize platform size),
      0 < room.length ∧ room.length ≤ platform.initialSize := by
    intro room member
    obtain ⟨gap, longer⟩ := heap.mem_gapsAbove.mp member
    have := heap.length_le_of_mem_gaps gap
    omega
  have count : (heap.gaps.countP fun room => regionSize platform size < room.length) =
      (heap.gapsAbove (regionSize platform size)).length := List.countP_eq_length_filter
  have some_iff : (∃ room ∈ heap.gaps, regionSize platform size < room.length) ↔
      heap.gapsAbove (regionSize platform size) ≠ [] := heap.gapsAbove_ne_nil.symm
  rw [overlooks_iff_misled represents.size proper, ← some_iff, ← count, ← startLength]
  constructor
  · rintro ⟨other, regions, otherMapped, listed, _, short, exists_, misled⟩
    obtain rfl : mm = other := Option.some.inj (mapped.symm.trans otherMapped)
    obtain rfl := represents.listed.unique listed
    rw [gaps] at exists_ misled
    exact ⟨short, exists_, misled⟩
  · rintro ⟨short, exists_, misled⟩
    refine ⟨mm, heap.regions, mapped, represents.listed, nonempty, short, ?_, ?_⟩
    · rwa [gaps]
    · rwa [gaps]

/-- In an empty mapping an allocation goes to the start, whatever it reads. -/
theorem Represents.alloc_of_empty {heap : Heap platform}
    (represents : Represents mm kernel.memory heap) {environment : Environment}
    (uses : kernel.Uses platform environment mm) (empty : heap.regions = []) {fuel : Nat}
    (enough : heap.regions.length < fuel) (observed : Nat → BitVec 32) (size : Nat) :
    sysTsoMmAllocObserving platform fuel observed environment size kernel =
      .ok (settledOutcome platform environment kernel mm size
        (if mm.free < regionSize platform size then none else some heap.startGap)) := by
  have startGap : ∀ room, some heap.startGap = some room →
      room ∈ heap.gaps ∧ (room.behind = none ∨ 0 < room.length) := by
    rintro room ⟨⟩
    exact ⟨heap.startGap_mem, Or.inl rfl⟩
  rw [uses.alloc_eq]
  refine allocMapped_eq represents.toDescribes environment startGap ?_
  rw [tsoMmGetFit_eq heap.toLayout .noFit represents.start represents.size represents.listed
    enough, if_pos empty]
  rfl

/-- An allocation that overlooks every large enough gap goes to the start. -/
theorem Represents.alloc_of_overlooks {heap : Heap platform}
    (represents : Represents mm kernel.memory heap) {environment : Environment}
    (uses : kernel.Uses platform environment mm) (nonempty : heap.regions ≠ []) {fuel : Nat}
    (enough : heap.regions.length < fuel) {observed : Nat → BitVec 32} {size : Nat}
    (gapped : heap.gapsAbove (regionSize platform size) ≠ [])
    (overlooks : Overlooks observed (Choice.init platform observed mm .noFit).bestSize 1
      (heap.gapsAbove (regionSize platform size))) :
    sysTsoMmAllocObserving platform fuel observed environment size kernel =
      .ok (placedOutcome platform environment kernel mm size heap.startGap) := by
  obtain ⟨room, gap, longer⟩ := heap.gapsAbove_ne_nil.mp gapped
  have counted : ¬ mm.free < regionSize platform size := by
    have short := heap.length_le_of_mem_gaps gap
    have free := represents.free
    unfold Heap.freeBytes at free
    omega
  have startGap : ∀ room, some heap.startGap = some room →
      room ∈ heap.gaps ∧ (room.behind = none ∨ 0 < room.length) := by
    rintro room ⟨⟩
    exact ⟨heap.startGap_mem, Or.inl rfl⟩
  rw [uses.alloc_eq, allocMapped_eq represents.toDescribes environment startGap
    (tsoMmGetFit_of_overlooks represents.toDescribes nonempty enough gapped overlooks),
    if_neg counted]
  rfl

/-- An allocation that does not overlook every large enough gap settles on one of them, or on none
when there is none. -/
theorem Represents.alloc_of_noticed {heap : Heap platform}
    (represents : Represents mm kernel.memory heap) {environment : Environment}
    (uses : kernel.Uses platform environment mm) (nonempty : heap.regions ≠ []) {fuel : Nat}
    (enough : heap.regions.length < fuel) {observed : Nat → BitVec 32} {size : Nat}
    (noticed : heap.gapsAbove (regionSize platform size) ≠ [] →
      ¬ Overlooks observed (Choice.init platform observed mm .noFit).bestSize 1
        (heap.gapsAbove (regionSize platform size))) :
    ∃ found, sysTsoMmAllocObserving platform fuel observed environment size kernel =
        .ok (settledOutcome platform environment kernel mm size found) ∧
      ∀ room, found = some room → room ∈ heap.gapsAbove (regionSize platform size) := by
  by_cases noGap : heap.gapsAbove (regionSize platform size) = []
  · have none : ∀ room, (Option.none : Option (Room Region)) = some room →
        room ∈ heap.gaps ∧ (room.behind = Option.none ∨ 0 < room.length) := by rintro room ⟨⟩
    refine ⟨Option.none, ?_, by rintro room ⟨⟩⟩
    rw [uses.alloc_eq, allocMapped_eq represents.toDescribes environment none
      (tsoMmGetFit_of_no_gap represents.toDescribes observed nonempty enough noGap), ite_self]
  · obtain ⟨room, member, searched⟩ :=
      tsoMmGetFit_of_not_overlooks represents.toDescribes nonempty enough (noticed noGap)
    obtain ⟨gap, longer⟩ := heap.mem_gapsAbove.mp member
    have counted : ¬ mm.free < regionSize platform size := by
      have short := heap.length_le_of_mem_gaps gap
      have free := represents.free
      unfold Heap.freeBytes at free
      omega
    have settled : ∀ other, some room = some other →
        other ∈ heap.gaps ∧ (other.behind = none ∨ 0 < other.length) := by
      rintro other ⟨⟩
      exact ⟨gap, Or.inr (by omega)⟩
    refine ⟨some room, ?_, by rintro other ⟨⟩; exact member⟩
    rw [uses.alloc_eq, allocMapped_eq represents.toDescribes environment settled searched,
      if_neg counted]

/-- An allocation that does not miss every gap settles on a gap that admits the region, if any. -/
theorem Represents.alloc_of_not_missesGaps {heap : Heap platform}
    (represents : Represents mm kernel.memory heap) {environment : Environment}
    (uses : kernel.Uses platform environment mm) {size : Nat}
    (fits : platform.headerSize + size < platform.modulus)
    {observed : Nat → AllocationStrategy}
    (noticed : ¬ MissesGaps platform kernel size observed) :
    ∃ found, sysTsoMmAllocObserving platform (heap.regions.length + 1) (valuesOf observed)
        environment size kernel = .ok (settledOutcome platform environment kernel mm size found) ∧
      ∀ room, found = some room → heap.Admits (platform.headerSize + size) room := by
  have exactSize : regionSize platform size = platform.headerSize + size :=
    Platform.add_of_lt fits
  have enough := Nat.lt_succ_self heap.regions.length
  have ofLonger : ∀ room ∈ heap.gapsAbove (regionSize platform size),
      heap.Admits (platform.headerSize + size) room := by
    intro room member
    obtain ⟨gap, longer⟩ := heap.mem_gapsAbove.mp member
    exact ⟨gap, Or.inl (exactSize ▸ longer)⟩
  by_cases empty : heap.regions = []
  · refine ⟨_, represents.alloc_of_empty uses empty enough _ size, ?_⟩
    intro room settled
    split at settled
    · cases settled
    · obtain rfl := Option.some.inj settled
      have free : mm.free ≤ platform.initialSize := represents.free ▸ Nat.sub_le _ _
      have whole : heap.startGap.length = platform.initialSize := by
        have gap := heap.startGap_mem
        rw [heap.gaps_of_empty empty, List.mem_singleton] at gap
        rw [gap]
      exact ⟨heap.startGap_mem, Or.inr ⟨empty, by omega⟩⟩
  have mapped := uses.mapped fun first => empty (represents.listed.first_eq_zero.mp first)
  rw [missesGaps_iff mapped represents empty] at noticed
  by_cases overlooks : heap.gapsAbove (regionSize platform size) ≠ [] ∧
      Overlooks (valuesOf observed) (Choice.init platform (valuesOf observed) mm .noFit).bestSize 1
        (heap.gapsAbove (regionSize platform size))
  · have longer : regionSize platform size < heap.startGap.length := by
      by_contra short
      exact noticed ⟨by omega, overlooks⟩
    refine ⟨some heap.startGap,
      represents.alloc_of_overlooks uses empty enough overlooks.1 overlooks.2, ?_⟩
    rintro room ⟨⟩
    exact ofLonger _ (heap.mem_gapsAbove.mpr ⟨heap.startGap_mem, longer⟩)
  · obtain ⟨found, returned, settled⟩ := represents.alloc_of_noticed uses empty enough
      fun gapped all => overlooks ⟨gapped, all⟩
    exact ⟨found, returned, fun room taken => ofLonger room (settled room taken)⟩

/-- An allocation that misses every gap puts the region at the start of the mapping. -/
theorem Represents.alloc_of_missesGaps {heap : Heap platform} (mapped : kernel.currentMm = some mm)
    (represents : Represents mm kernel.memory heap) (nonempty : heap.regions ≠ [])
    (environment : Environment) {size : Nat} {observed : Nat → AllocationStrategy}
    (missed : MissesGaps platform kernel size observed) :
    sysTsoMmAllocObserving platform (heap.regions.length + 1) (valuesOf observed) environment size
        kernel = .ok (placedOutcome platform environment kernel mm size heap.startGap) := by
  obtain ⟨_, gapped, overlooks⟩ := (missesGaps_iff mapped represents nonempty observed).mp missed
  exact represents.alloc_of_overlooks (Or.inl mapped) nonempty (Nat.lt_succ_self _) gapped
    overlooks

/-- In a state that holds a heap, an allocation keeps apart exactly when it does not miss every
gap. -/
theorem Kernel.Holds.keepsApart_iff {heap : Option (Heap platform)}
    (holds : kernel.Holds platform heap) {environment : Environment}
    (grants : environment.Grants platform) {size : Nat}
    (fits : platform.headerSize + size < platform.modulus)
    (observed : Nat → AllocationStrategy) :
    KeepsApart platform kernel environment size (valuesOf observed) ↔
      ¬ MissesGaps platform kernel size observed := by
  obtain ⟨mm, uses, represents⟩ := holds.uses grants
  constructor
  · rintro ⟨fuel, outcome, other, returned, otherUses, answer⟩ missed
    obtain rfl := uses.unique otherUses
    have shape := missed
    obtain ⟨found, regions, foundMapped, listed, nonempty, short, _⟩ := shape
    have mapped : kernel.currentMm = some mm := by
      rcases uses with mapped | ⟨unmapped, _⟩
      · exact mapped
      · rw [foundMapped] at unmapped
        cases unmapped
    obtain rfl : mm = found := Option.some.inj (mapped.symm.trans foundMapped)
    obtain rfl := represents.listed.unique listed
    have placed := represents.alloc_of_missesGaps mapped nonempty environment missed
    have same : outcome = placedOutcome platform environment kernel mm size
        (heap.getD grants.heap).startGap := allocObserving_unique returned placed
    subst same
    rcases answer with ⟨refused, _⟩ | ⟨_, after, front, back, recorded, linked, passes⟩
    · cases refused
    · obtain rfl : placedMapping platform mm size (heap.getD grants.heap).startGap = after :=
        Option.some.inj recorded
      obtain rfl := represents.toDescribes.linkedAtStart linked
      obtain rfl := represents.listed.unique linked.before
      rcases passes with longer | ⟨none, _⟩
      · exact absurd longer (not_lt.mpr short)
      · exact nonempty none
  · intro noticed
    obtain ⟨found, returned, admits⟩ := represents.alloc_of_not_missesGaps uses fits noticed
    refine ⟨_, _, mm, returned, uses, ?_⟩
    cases found with
    | none => exact Or.inl ⟨rfl, rfl⟩
    | some room =>
      obtain ⟨front, back, _, length, placed⟩ := represents.placed (admits room rfl)
      exact Or.inr ⟨rfl, _, front, back, rfl, placed.toLinkedInGap,
        represents.passesTest (admits room rfl) (Platform.add_of_lt fits) placed.before length⟩

/-! ### Runs with changing strategies -/

/-- A call of one task while others change the strategy. -/
inductive MixedCall where
  | alloc (environment : Environment) (size : Nat) (observed : Nat → AllocationStrategy)
  | free (addr : Nat)

section

variable (platform : Platform)

/-- What a call under changing strategies leaves behind. -/
def MixedCall.invoke (fuel : Nat) (kernel : Kernel) : MixedCall → Except Trap Outcome
  | .alloc environment size observed =>
    sysTsoMmAllocObserving platform fuel (valuesOf observed) environment size kernel
  | .free addr => sysTsoMmFree platform fuel addr kernel

/-- A call a task may make, whose reads do not miss every gap. -/
def MixedCall.Legal (kernel : Kernel) : MixedCall → Prop
  | .alloc environment size observed =>
    environment.Grants platform ∧ platform.headerSize + size < platform.modulus ∧
      ¬ MissesGaps platform kernel size observed
  | .free _ => kernel.currentMm ≠ none

/-- A call under changing strategies that returns. -/
def MixedStep (before : Kernel) (call : MixedCall) (after : Kernel) : Prop :=
  call.Legal platform before ∧
    ∃ fuel outcome, call.invoke platform fuel before = .ok outcome ∧ outcome.kernel = after

end

/-- A call that misses every gap found, at the first that passes, the one strategy that rules it
out. -/
theorem MissesGaps.first_read {size : Nat} {observed : Nat → AllocationStrategy}
    (missed : MissesGaps platform kernel size observed) :
    observed 1 = if observed 0 = .bestFit then .worstFit else .bestFit := by
  obtain ⟨mm, regions, _, _, _, _, ⟨room, member, longer⟩, misled⟩ := missed
  exact misled 1 le_rfl (List.countP_pos_iff.mpr ⟨room, member, decide_eq_true longer⟩)

/-- An allocation during which nobody changes the strategy is one under changing strategies. -/
theorem mixedStep_of_legalStep {task : TaskState platform} (models : kernel.Models task)
    {environment : Environment} {size : Nat} {answer : Answer} {after : Kernel}
    (step : LegalStep platform kernel ⟨.alloc environment size, answer⟩ after) :
    MixedStep platform kernel (.alloc environment size fun _ => task.strategy) after := by
  obtain ⟨⟨grants, fits⟩, fuel, outcome, returned, _, same⟩ := step
  refine ⟨⟨grants, fits, fun missed => ?_⟩, fuel, outcome, ?_, same⟩
  · have read := missed.first_read
    revert read
    cases task.strategy <;> decide
  · have follows : (fun _ : Nat => kernel.currentStrategy) = valuesOf fun _ => task.strategy :=
      funext fun _ => models.1
    show sysTsoMmAllocObserving platform fuel _ environment size kernel = .ok outcome
    rw [← follows]
    exact returned

/-- A call under changing strategies that misses no gap keeps a heap. -/
theorem Kernel.Holds.mixedStep {heap : Option (Heap platform)}
    (holds : kernel.Holds platform heap) {call : MixedCall} {after : Kernel}
    (step : MixedStep platform kernel call after) :
    ∃ next : Option (Heap platform), after.Holds platform next := by
  obtain ⟨legal, fuel, outcome, returned, rfl⟩ := step
  cases call with
  | alloc environment size observed =>
    obtain ⟨grants, fits, noticed⟩ := legal
    obtain ⟨mm, uses, represents⟩ := holds.uses grants
    obtain ⟨found, expected, admits⟩ := represents.alloc_of_not_missesGaps uses fits noticed
    have same := allocObserving_unique returned expected
    rw [same]
    cases found with
    | none => exact ⟨some _, mm, rfl, represents⟩
    | some room => exact ⟨some _, _, rfl, represents.place (admits room rfl)⟩
  | free addr =>
    cases heap with
    | none => exact absurd holds legal
    | some heap =>
      obtain ⟨mm, mapped, represents⟩ := holds
      obtain ⟨expected, expectedReturned, realizes⟩ :=
        free_realizes mapped represents addr le_rfl
      have called : TsoAlloc.invoke platform fuel kernel (.free addr) = .ok outcome := returned
      obtain rfl := invoke_unique called expectedReturned
      exact ⟨some _, realizes.represents⟩

/-- In every state that a run of one task reaches while others change the strategy, as long as its
allocations do not miss every gap, the next allocation keeps apart if and only if it does not
miss every gap. -/
theorem keepsApart_iff_of_run {start after : Kernel} {calls : List MixedCall}
    (unmapped : start.currentMm = none) (run : Run (MixedStep platform) start calls after)
    {environment : Environment} (grants : environment.Grants platform) {size : Nat}
    (fits : platform.headerSize + size < platform.modulus)
    (observed : Nat → AllocationStrategy) :
    KeepsApart platform after environment size (valuesOf observed) ↔
      ¬ MissesGaps platform after size observed := by
  have initially : ∃ heap : Option (Heap platform), start.Holds platform heap := ⟨none, unmapped⟩
  have kept : ∀ before call after, (∃ heap : Option (Heap platform), before.Holds platform heap) →
      MixedStep platform before call after →
        ∃ heap : Option (Heap platform), after.Holds platform heap :=
    fun _ _ _ ⟨_, holds⟩ step => holds.mixedStep step
  obtain ⟨heap, holds⟩ := run.invariant initially kept
  exact holds.keepsApart_iff grants fits observed

/-- A task that has allocated 40 bytes from the start of its mapping. -/
theorem exists_oneBlock : ∃ after,
    Run (MixedStep Platform.i386) (Kernel.boot fun _ => 0)
        [.alloc .secondPage 40 fun _ => .firstFit] after ∧
      after.currentMm = some ⟨0x1000, 0x1000, 32768, 32720⟩ ∧
        Listed Platform.i386 after.memory 0x1000 [⟨0x1000, 40⟩] := by
  obtain ⟨events, after, run, seen⟩ := exists_run Platform.i386 9 (Kernel.boot fun _ => 0)
    [.alloc .secondPage 40]
    (fun state => (state.1, state.2.currentMm,
      decide (Listed Platform.i386 state.2.memory 0x1000 [⟨0x1000, 40⟩])))
    (show _ = some ([⟨.alloc .secondPage 40, 0, some 0x1008⟩],
      some ⟨0x1000, 0x1000, 32768, 32720⟩, true) by decide +kernel)
  simp only [Prod.mk.injEq, decide_eq_true_eq] at seen
  obtain ⟨rfl, mapped, listed⟩ := seen
  have models : (Kernel.boot fun _ => 0).Models (⟨.firstFit, none⟩ : TaskState Platform.i386) :=
    ⟨rfl, rfl⟩
  exact ⟨after, run_singleton.mpr (mixedStep_of_legalStep models (run_singleton.mp run)),
    mapped, listed⟩

theorem keepsApart_sample : ∃ after,
    Run (MixedStep Platform.i386) (Kernel.boot fun _ => 0)
        [.alloc .secondPage 40 fun _ => .firstFit] after ∧
      KeepsApart Platform.i386 after .secondPage 8
        (valuesOf fun read => if read = 0 then .worstFit else .firstFit) := by
  obtain ⟨after, run, _, _⟩ := exists_oneBlock
  refine ⟨after, run, (keepsApart_iff_of_run rfl run (by decide) (by decide) _).mpr ?_⟩
  intro missed
  have read := missed.first_read
  revert read
  decide

/-- With one block at the start of the mapping, an allocation that seeds under `WORST_FIT` and
compares under `BEST_FIT` goes over that block. -/
theorem not_keepsApart_worst_best : ¬ ∀ (start after : Kernel) (calls : List MixedCall),
    start.currentMm = none → Run (MixedStep Platform.i386) start calls after →
      (∃ mm, after.currentMm = some mm ∧ mm.firstRegion ≠ 0) →
        ∀ size, Platform.i386.headerSize + size < Platform.i386.modulus →
          ∀ observed, KeepsApart Platform.i386 after .secondPage size (valuesOf observed) := by
  intro always
  obtain ⟨after, run, mapped, listed⟩ := exists_oneBlock
  have missed : MissesGaps Platform.i386 after 8
      fun read => if read = 0 then .worstFit else .bestFit := by
    refine ⟨_, _, mapped, listed, by decide, by decide, by decide, ?_⟩
    intro read low _
    have later : read ≠ 0 := by omega
    simp only [later, if_true, if_false, reduceCtorEq]
  have kept := always _ after _ rfl run ⟨_, mapped, by decide⟩ 8 (by decide)
    fun read => if read = 0 then .worstFit else .bestFit
  have initially : (Kernel.boot fun _ => 0).Holds Platform.i386 none := rfl
  obtain ⟨heap, holds⟩ := initially.mixedStep (run_singleton.mp run)
  exact (holds.keepsApart_iff (by decide) (by decide) _).mp kept missed

end TsoAlloc
