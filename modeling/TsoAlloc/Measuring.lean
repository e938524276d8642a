/-
This file settles how the two loops of the allocator go. The scan of `tso_mm_get_fit`
evaluates `available_size` once before its loop and once in every round that goes on, so its
values are what the rounds begin with: the lengths of the gaps in address order, all of them
unless `FIRST_FIT` returns one. Each is the exact difference of integers, although the three
places compute it in three ways. The walk of `sys_tso_mm_free` goes along the regions, which
are different, so it meets none of them twice.
-/

import TsoAlloc.Placement

namespace TsoAlloc

open Extents LinkedSegment Transition

section

variable (platform : Platform)

/-- The loop variables of the scan for a request at the beginning of each round. -/
def Kernel.scans (kernel : Kernel) (mm : TsoMmMapping) (fuel size : Nat) (state : FitConditions) :
    List Scan :=
  BoundedLoop.trail (Scan.round platform (fun _ => kernel.currentStrategy) mm kernel.memory size)
    fuel (Scan.init platform (fun _ => kernel.currentStrategy) mm state)

/-- The values of `available_size` that the scan for a request evaluates, in order. -/
def Kernel.availableSizes (kernel : Kernel) (mm : TsoMmMapping) (fuel size : Nat)
    (state : FitConditions) : List Nat :=
  (kernel.scans platform mm fuel size state).map Scan.availableSize

/-- The round returns from the `switch` of the loop: the gap is large enough and the strategy is
`FIRST_FIT`. -/
def Scan.ReturnsEarly (observed : Nat → BitVec 32) (size : Nat) (scan : Scan) : Prop :=
  regionSize platform size < scan.availableSize ∧
    AllocationStrategy.ofValue (observed scan.reads) = some .firstFit

/-- The two subtractions at the end of a round, with the given value for the end of the mapping,
take no number from a smaller one. -/
def Scan.Subtracts (memory : ByteMemory) (stop : Nat) (scan : Scan) : Prop :=
  ∀ next previousSize, readNext platform memory scan.nextRegion = .ok next →
    readSize platform memory scan.nextRegion = .ok previousSize →
      scan.nextRegion ≤ (if next ≠ 0 then next else stop) ∧
        regionSize platform previousSize ≤ (if next ≠ 0 then next else stop) - scan.nextRegion

/-- The lengths of the gaps that the regions of a list leave between two bounds, as integers. -/
def gapLengths (lo hi : Int) : List Region → List Int
  | [] => [hi - lo]
  | region :: rest => (region.addr - lo) :: gapLengths (region.top platform) hi rest

/-- The scan for a request measures the gaps between the regions of a list. It returns, and the
values it evaluates are the lengths of the first gaps, of all of them if it does not return early.
The lengths are exact, and no subtraction goes below zero, neither the one before the loop nor those
in the loop. The code computes the end of the mapping as a word, which it is for every range that
does not end with the address space. -/
structure Kernel.MeasuresGaps (kernel : Kernel) (mm : TsoMmMapping) (regions : List Region)
    (fuel size : Nat) (state : FitConditions) : Prop where
  returns : ∃ fit, tsoMmGetFit platform fuel (fun _ => kernel.currentStrategy) mm kernel.memory size
    state = .ok fit
  along : kernel.availableSizes platform mm fuel size state <+:
    (gapsOf platform mm regions).map Room.length
  whole : (∀ scan ∈ kernel.scans platform mm fuel size state,
      ¬ scan.ReturnsEarly platform (fun _ => kernel.currentStrategy) size) →
    kernel.availableSizes platform mm fuel size state =
        (gapsOf platform mm regions).map Room.length ∧
      (kernel.availableSizes platform mm fuel size state).length = regions.length + 1 ∧
        (kernel.availableSizes platform mm fuel size state).sum = mm.free
  lengths : (gapsOf platform mm regions).map (fun room => (room.length : Int)) =
    gapLengths platform mm.start (mm.start + mm.size) regions
  before : mm.start ≤ mm.firstRegion
  inside : ∀ scan ∈ kernel.scans platform mm fuel size state,
    scan.Subtracts platform kernel.memory (mm.start + mm.size)
  words : mm.start + mm.size < platform.modulus →
    ∀ scan ∈ kernel.scans platform mm fuel size state,
      scan.Subtracts platform kernel.memory (platform.add mm.start mm.size)

/-- The values that `region` takes in a free until it returns, without `NULL`. -/
def Kernel.visits (kernel : Kernel) (mm : TsoMmMapping) (fuel addr : Nat) : List Nat :=
  if mm.firstRegion = 0 then []
  else
    mm.firstRegion ::
      if platform.add mm.firstRegion platform.headerSize = addr then []
      else
        match readNext platform kernel.memory mm.firstRegion with
        | .error _ => []
        | .ok next =>
          ((BoundedLoop.trail (Walk.round platform kernel mm addr) fuel
            (Walk.at platform mm.firstRegion next)).map Walk.region).filter (· ≠ 0)

end

variable {platform : Platform} {kernel : Kernel} {mm : TsoMmMapping} {memory : ByteMemory}

/-! ### The scan -/

section

variable {observed : Nat → BitVec 32} {size : Nat} {scan next : Scan}

/-- The scan has just measured the gap from `lo` up to the first of the regions that are left. -/
structure Scan.Stands (platform : Platform) (mm : TsoMmMapping) (memory : ByteMemory) (scan : Scan)
    (lo : Nat) (rest : List Region) : Prop where
  low : 0 < lo
  listed : Listed platform memory scan.nextRegion rest
  packed : Packed Region.addr (Region.top platform) lo (mm.start + mm.size) rest
  available : scan.availableSize = roomTop Region.addr (mm.start + mm.size) rest - lo

theorem Scan.round_of_not_returnsEarly (late : ¬ scan.ReturnsEarly platform observed size) :
    ∃ choice : Choice, Scan.round platform observed mm memory size scan =
      Scan.advance platform mm memory { scan with toChoice := choice } := by
  unfold Scan.round
  split
  · rename_i large
    rw [if_neg fun first => late ⟨large, first⟩]
    exact ⟨_, rfl⟩
  · exact ⟨scan.toChoice, rfl⟩

theorem Scan.ReturnsEarly.not_next (early : scan.ReturnsEarly platform observed size) :
    Scan.round platform observed mm memory size scan ≠ .ok (.inl next) := by
  unfold Scan.round
  rw [if_pos early.1, if_pos early.2]
  exact nofun

/-- Before the last gap the end of a round measures the next one. -/
theorem Scan.Stands.advance {lo : Nat} {region : Region} {rest : List Region}
    (stands : scan.Stands platform mm memory lo (region :: rest))
    (fits : mm.start + mm.size ≤ platform.modulus) (choice : Choice) :
    ∃ next, Scan.advance platform mm memory { scan with toChoice := choice } = .ok (.inl next) ∧
      next.Stands platform mm memory (region.top platform) rest := by
  have listed : Listed platform memory { scan with toChoice := choice }.nextRegion
      (region :: rest) := stands.listed
  have below := region.addr_lt_top platform
  obtain ⟨_, _, _, tail⟩ := listed_cons.mp stands.listed
  exact ⟨_, advance_cons stands.low fits listed stands.packed,
    ⟨by omega, tail, stands.packed.2.2, rfl⟩⟩

/-- A round that goes on has measured a gap before a region, and then the one behind it. -/
theorem Scan.Stands.round {lo : Nat} {rest : List Region}
    (stands : scan.Stands platform mm memory lo rest)
    (fits : mm.start + mm.size ≤ platform.modulus)
    (went : Scan.round platform observed mm memory size scan = .ok (.inl next)) :
    ∃ region others, rest = region :: others ∧
      next.Stands platform mm memory (region.top platform) others := by
  obtain ⟨choice, same⟩ := @Scan.round_of_not_returnsEarly platform mm memory observed size scan
    fun early => early.not_next went
  rw [same] at went
  cases rest with
  | nil =>
    have ends : Listed platform memory { scan with toChoice := choice }.nextRegion [] :=
      stands.listed
    rw [advance_nil ends] at went
    cases went
  | cons region others =>
    obtain ⟨found, advanced, follows⟩ := stands.advance fits choice
    obtain rfl := Sum.inl.inj (Except.ok.inj (advanced.symm.trans went))
    exact ⟨region, others, rfl, follows⟩

/-- At the beginning of every round the scan has just measured a gap. -/
theorem Scan.Stands.trail {lo : Nat} {rest : List Region}
    (stands : scan.Stands platform mm memory lo rest)
    (fits : mm.start + mm.size ≤ platform.modulus) (fuel : Nat) :
    ∀ later ∈ BoundedLoop.trail (Scan.round platform observed mm memory size) fuel scan,
      ∃ lo rest, later.Stands platform mm memory lo rest := by
  refine BoundedLoop.trail_rule
    (fun scan : Scan => ∃ lo rest, scan.Stands platform mm memory lo rest) ?_ fuel
    ⟨lo, rest, stands⟩
  rintro scan next ⟨lo, rest, here⟩ went
  obtain ⟨region, others, _, follows⟩ := here.round fits went
  exact ⟨_, others, follows⟩

/-- Neither subtraction behind the gap goes below zero. -/
theorem Scan.Stands.subtracts {lo : Nat} {rest : List Region}
    (stands : scan.Stands platform mm memory lo rest)
    (fits : mm.start + mm.size ≤ platform.modulus) :
    scan.Subtracts platform memory (mm.start + mm.size) := by
  intro following previousSize readFollowing readPrevious
  cases rest with
  | nil =>
    rw [readNext, if_pos (listed_nil.mp stands.listed)] at readFollowing
    cases readFollowing
  | cons region others =>
    obtain ⟨here, valid, size, tail⟩ := listed_cons.mp stands.listed
    obtain ⟨low, _, packed⟩ := stands.packed
    have lowest := stands.low
    rw [here] at readFollowing readPrevious ⊢
    rw [readNext, if_neg valid] at readFollowing
    rw [readSize, if_neg valid] at readPrevious
    obtain rfl := Except.ok.inj readFollowing
    obtain rfl := Except.ok.inj readPrevious
    unfold sizeOf at size
    unfold nextOf at tail
    have limit : (if memory.load platform.wordBytes region.addr ≠ 0 then
        memory.load platform.wordBytes region.addr else mm.start + mm.size) =
          roomTop Region.addr (mm.start + mm.size) others := by
      cases others with
      | nil => rw [if_neg (not_not.mpr (listed_nil.mp tail))]; rfl
      | cons other later =>
        obtain ⟨there, validOther, _, _⟩ := listed_cons.mp tail
        rw [there, if_pos validOther]
        rfl
    have room := packed.le_roomTop
    rw [limit, size, regionSize_of_top_le (by omega) packed.le fits]
    unfold Region.top at room
    omega

/-- The lengths of the gaps that are left, from the one that the scan stands at. -/
def Scan.Measures (platform : Platform) (mm : TsoMmMapping) (memory : ByteMemory) (scan : Scan)
    (lengths : List Nat) : Prop :=
  ∃ behind lo rest, scan.Stands platform mm memory lo rest ∧
    lengths = (rooms Region.addr (Region.top platform) behind lo (mm.start + mm.size) rest).map
      Room.length

/-- Every round stands at the first gap that is left. -/
theorem Scan.Measures.round {lengths : List Nat}
    (measures : scan.Measures platform mm memory lengths)
    (fits : mm.start + mm.size ≤ platform.modulus) :
    ∃ rest, lengths = scan.availableSize :: rest ∧ ∀ next,
      Scan.round platform observed mm memory size scan = .ok (.inl next) →
        next.Measures platform mm memory rest := by
  obtain ⟨behind, lo, rest, stands, rfl⟩ := measures
  cases rest with
  | nil =>
    refine ⟨[], by rw [stands.available]; rfl, fun next went => ?_⟩
    obtain ⟨_, _, split, _⟩ := stands.round fits went
    cases split
  | cons region others =>
    refine ⟨_, by rw [stands.available]; rfl, fun next went => ?_⟩
    obtain ⟨_, _, split, follows⟩ := stands.round fits went
    obtain ⟨rfl, rfl⟩ := List.cons.inj split
    exact ⟨some region, region.top platform, others, follows, rfl⟩

/-- A round before the last gap goes on unless it returns early. -/
theorem Scan.Measures.exists_next {rest : List Nat}
    (measures : scan.Measures platform mm memory (scan.availableSize :: rest)) (more : rest ≠ [])
    (fits : mm.start + mm.size ≤ platform.modulus)
    (late : ¬ scan.ReturnsEarly platform observed size) :
    ∃ next, Scan.round platform observed mm memory size scan = .ok (.inl next) := by
  obtain ⟨behind, lo, regions, stands, lengths⟩ := measures
  cases regions with
  | nil => exact absurd (List.cons.inj lengths).2 more
  | cons region others =>
    obtain ⟨choice, same⟩ := @Scan.round_of_not_returnsEarly platform mm memory observed size scan
      late
    obtain ⟨next, advanced, _⟩ := stands.advance fits choice
    exact ⟨next, same.trans advanced⟩

/-- Without an early return the rounds measure all the gaps that are left. -/
theorem Scan.Measures.trail_eq {lengths : List Nat}
    (measures : scan.Measures platform mm memory lengths)
    (fits : mm.start + mm.size ≤ platform.modulus) {fuel : Nat} (enough : lengths.length ≤ fuel)
    (late : ∀ later ∈ BoundedLoop.trail (Scan.round platform observed mm memory size) fuel scan,
      ¬ later.ReturnsEarly platform observed size) :
    (BoundedLoop.trail (Scan.round platform observed mm memory size) fuel scan).map
      Scan.availableSize = lengths := by
  refine BoundedLoop.trail_through (fun scan lengths here => here.round fits) measures enough ?_
  intro later member rest here more
  exact here.exists_next more fits (late later member)

end

/-! ### The scan of a heap -/

theorem Describes.gapsOf_eq {layout : Layout platform} (describes : Describes mm memory layout) :
    gapsOf platform mm layout.regions = layout.gaps := by
  rw [gapsOf, describes.start, describes.size]
  rfl

/-- The lengths of the gaps that a packed list leaves are exact. -/
theorem map_length_rooms {lo hi : Nat} {regions : List Region} (behind : Option Region)
    (packed : Packed Region.addr (Region.top platform) lo hi regions) :
    (rooms Region.addr (Region.top platform) behind lo hi regions).map
        (fun room => (room.length : Int)) = gapLengths platform lo hi regions := by
  induction regions generalizing behind lo with
  | nil =>
    rw [rooms, List.map_singleton, gapLengths, Int.ofNat_sub packed]
  | cons region rest inductionHypothesis =>
    obtain ⟨low, _, tail⟩ := packed
    rw [rooms, List.map_cons, gapLengths, inductionHypothesis _ tail, Int.ofNat_sub low]

/-- The gaps of a heap sum up to the counter. -/
theorem Represents.sum_gaps {heap : Heap platform} (represents : Represents mm memory heap) :
    ((gapsOf platform mm heap.regions).map Room.length).sum = mm.free := by
  have filled := heap.sum_gaps_add_used
  rw [represents.toDescribes.gapsOf_eq, represents.free]
  unfold Heap.freeBytes
  omega

/-- Before its first round the scan has measured the gap before the first region. -/
theorem Describes.stands_init {layout : Layout platform} (describes : Describes mm memory layout)
    (nonempty : layout.regions ≠ []) (observed : Nat → BitVec 32) (state : FitConditions) :
    (Scan.init platform observed mm state).Stands platform mm memory mm.start layout.regions ∧
      mm.start ≤ mm.firstRegion := by
  have packed : Packed Region.addr (Region.top platform) mm.start (mm.start + mm.size)
      layout.regions := by
    rw [layout.stop_eq describes.start describes.size, describes.start]
    exact layout.packed
  refine ⟨⟨describes.start ▸ layout.start_pos, describes.listed, packed, ?_⟩, ?_⟩
  · rw [layout.availableSize_init observed state describes.start describes.listed nonempty,
      describes.start]
  · obtain ⟨region, rest, shape⟩ := List.exists_cons_of_ne_nil nonempty
    have listed := describes.listed
    rw [shape] at listed packed
    rw [(listed_cons.mp listed).1]
    exact packed.1

/-- The scan of a heap with regions measures its gaps. -/
theorem Represents.measuresGaps {heap : Heap platform}
    (represents : Represents mm kernel.memory heap) (nonempty : heap.regions ≠ []) {fuel : Nat}
    (enough : heap.regions.length < fuel) (size : Nat) (state : FitConditions) :
    kernel.MeasuresGaps platform mm heap.regions fuel size state := by
  have describes := represents.toDescribes
  have fits : mm.start + mm.size ≤ platform.modulus := by
    rw [heap.stop_eq describes.start describes.size]
    exact heap.fits
  obtain ⟨stands, low⟩ := describes.stands_init nonempty (fun _ => kernel.currentStrategy) state
  have begins : (Scan.init platform (fun _ => kernel.currentStrategy) mm state).Measures platform mm
      kernel.memory ((gapsOf platform mm heap.regions).map Room.length) :=
    ⟨none, mm.start, heap.regions, stands, rfl⟩
  have many : ((gapsOf platform mm heap.regions).map Room.length).length =
      heap.regions.length + 1 := by
    rw [List.length_map, gapsOf, length_rooms]
  have inside : ∀ scan ∈ kernel.scans platform mm fuel size state,
      scan.Subtracts platform kernel.memory (mm.start + mm.size) := by
    intro scan member
    obtain ⟨lo, rest, here⟩ := stands.trail fits fuel scan member
    exact here.subtracts fits
  refine ⟨⟨_, tsoMmGetFit_eq heap.toLayout state describes.start describes.size describes.listed
    enough⟩, ?_, ?_, map_length_rooms none stands.packed, low, inside, ?_⟩
  · exact BoundedLoop.trail_along (fun scan lengths measures => measures.round fits) fuel begins
  · intro late
    have all : kernel.availableSizes platform mm fuel size state =
        (gapsOf platform mm heap.regions).map Room.length :=
      begins.trail_eq fits (many.trans_le enough) late
    exact ⟨all, by rw [all, many], by rw [all, represents.sum_gaps]⟩
  · intro word scan member
    rw [Platform.add_of_lt word]
    exact inside scan member

/-! ### The walk -/

/-- A round of the walk that goes on steps to the next region. -/
theorem Walk.round_next {addr : Nat} {walk next : Walk}
    (went : walk.round platform kernel mm addr = .ok (.inl next)) :
    next.region = nextOf platform kernel.memory walk.region := by
  unfold Walk.round at went
  by_cases ended : walk.region = 0
  · rw [if_pos ended] at went
    cases went
  rw [if_neg ended] at went
  by_cases found : walk.dataAdd = addr
  · rw [if_pos found] at went
    simp only [readNext, ended, if_false, bind, Except.bind] at went
    split at went
    · cases went
    · split at went <;> cases went
  · simp only [found, if_false, readNext, ended, bind, Except.bind] at went
    split at went
    · cases went
    · obtain rfl := Sum.inl.inj (Except.ok.inj went)
      rfl

/-- The walk goes along the list and, when it runs off its end, stops at `NULL`. -/
theorem Walk.trail_along {addrs : List Nat} {walk : Walk}
    (linked : Linked (nextOf platform kernel.memory) 0 walk.region addrs) (fuel addr : Nat) :
    (BoundedLoop.trail (Walk.round platform kernel mm addr) fuel walk).map Walk.region <+:
      addrs ++ [0] := by
  refine @BoundedLoop.trail_along _ _ _ _ _ Walk.region (fun (walk : Walk) items => ∃ addrs,
    Linked (nextOf platform kernel.memory) 0 walk.region addrs ∧ items = addrs ++ [0]) ?_ fuel
    walk _ ⟨addrs, linked, rfl⟩
  rintro walk items ⟨addrs, linked, rfl⟩
  cases addrs with
  | nil =>
    have ends : walk.region = 0 := linked
    refine ⟨[], by rw [ends]; rfl, fun next went => ?_⟩
    rw [Walk.round, if_pos ends] at went
    cases went
  | cons first rest =>
    obtain ⟨here, _, tail⟩ := linked_cons.mp linked
    refine ⟨rest ++ [0], by rw [here]; rfl, fun next went => ⟨rest, ?_, rfl⟩⟩
    rw [Walk.round_next went, here]
    exact tail

/-- The walk meets regions of the list, in order. -/
theorem Describes.visits_along {layout : Layout platform}
    (describes : Describes mm kernel.memory layout) (fuel addr : Nat) :
    kernel.visits platform mm fuel addr <+: layout.regions.map Region.addr := by
  have listed := describes.listed
  unfold Kernel.visits
  split
  · exact List.nil_prefix
  rename_i headed
  cases shape : layout.regions with
  | nil =>
    rw [shape] at listed
    exact absurd (listed_nil.mp listed) headed
  | cons region rest =>
    rw [shape] at listed
    obtain ⟨here, valid, _, tail⟩ := listed_cons.mp listed
    rw [List.map_cons, here, List.cons_prefix_cons]
    refine ⟨rfl, ?_⟩
    split
    · exact List.nil_prefix
    have read : readNext platform kernel.memory region.addr =
        .ok (nextOf platform kernel.memory region.addr) := by
      rw [readNext, if_neg valid]
      rfl
    have proper : ∀ addr ∈ rest.map Region.addr, decide (addr ≠ 0) = true := by
      intro addr member
      obtain ⟨other, otherMember, rfl⟩ := List.mem_map.mp member
      have inside : other ∈ layout.regions := shape ▸ List.mem_cons_of_mem _ otherMember
      exact decide_eq_true (layout.addr_ne_zero inside)
    rw [read]
    have walked := (@Walk.trail_along platform kernel mm _
      (Walk.at platform region.addr (nextOf platform kernel.memory region.addr)) tail.linked
      fuel addr).filter fun addr => decide (addr ≠ 0)
    rw [List.filter_append, List.filter_eq_self.mpr proper] at walked
    simpa using walked

/-! ### Runs -/

/-- In every state with regions that a run of legal calls reaches, a scan for any request measures
the gaps, and a free of any address returns after it has met regions of the list in order, none of
them twice. -/
theorem measuresGaps_of_run {start after : Kernel} {events : List Event} (fresh : start.Fresh)
    (run : Run (LegalStep platform) start events after) (mapped : after.currentMm = some mm)
    {regions : List Region} (listed : Listed platform after.memory mm.firstRegion regions)
    (nonempty : regions ≠ []) {fuel : Nat} (enough : regions.length < fuel) :
    (∀ size state, after.MeasuresGaps platform mm regions fuel size state) ∧
      regions.Pairwise (fun earlier later => earlier.addr < later.addr) ∧
        ∀ addr, (∃ outcome, sysTsoMmFree platform fuel addr after = .ok outcome) ∧
          after.visits platform mm fuel addr <+: regions.map Region.addr ∧
            (after.visits platform mm fuel addr).Nodup := by
  obtain ⟨⟨strategy, held⟩, models⟩ := models_of_run fresh run
  obtain ⟨heap, rfl, represents⟩ := models.2.heap mapped
  obtain rfl := represents.listed.unique listed
  refine ⟨represents.measuresGaps nonempty enough, heap.addr_lt, fun addr => ?_⟩
  obtain ⟨outcome, returned, _⟩ := models.free_realizes addr enough.le
  have along := represents.toDescribes.visits_along fuel addr
  exact ⟨⟨outcome, returned⟩, along, heap.nodup_addr.sublist along.sublist⟩

/-- Three blocks are scanned for a request that none of the gaps can hold. -/
theorem measuresGaps_sample : ∃ after,
    Run (LegalStep Platform.i386) (Kernel.boot fun _ => 0) threeBlocks after ∧
      after.availableSizes Platform.i386 ⟨0x1000, 0x1000, 32768, 32704⟩ 4 40000 .noFit =
          [0, 24, 0, 32680] ∧
        after.visits Platform.i386 ⟨0x1000, 0x1000, 32768, 32704⟩ 4 0x2000 <+:
          [0x1000, 0x1028, 0x1048] := by
  obtain ⟨after, run, mapped, listed⟩ := exists_run_threeBlocks
  obtain ⟨scans, _, walks⟩ := measuresGaps_of_run (Kernel.fresh_boot _) run mapped listed
    (List.cons_ne_nil _ _) (Nat.lt_succ_self _)
  have measures := scans 40000 .noFit
  refine ⟨after, run, (measures.whole ?_).1, (walks 0x2000).2.1⟩
  -- No gap is larger than what the last region leaves.
  rintro scan member ⟨large, _⟩
  have measured : scan.availableSize ∈ [0, 24, 0, 32680] :=
    measures.along.subset (List.mem_map_of_mem member)
  have request : regionSize Platform.i386 40000 = 40008 := by decide
  have longest : ∀ length ∈ [0, 24, 0, 32680], length ≤ 32680 := by decide
  have := longest _ measured
  omega

end TsoAlloc
