/-
This file says when a system call never returns. Both loops follow `next` until it is
`NULL` and count nothing, so over headers that anybody may have written a call goes on for
ever exactly when `next` never comes to `NULL` from `first_region` and nothing on the way
ends the loop: a match, in `sys_tso_mm_free`, or a large enough gap under `FIRST_FIT`. A
task brings that about with one word: it links the last of its regions to the first.
-/

import TsoAlloc.Placement
import TsoAlloc.Tampering

namespace TsoAlloc

open Transition

section

variable (platform : Platform)

/-- A call that does not return for any number of rounds. -/
def Kernel.Hangs (kernel : Kernel) (call : Call) : Prop :=
  ∀ fuel, invoke platform fuel kernel call = .error .timeout

/-- The region that following `next` some number of times from a first region comes to. -/
def regionAt (memory : ByteMemory) (first count : Nat) : Nat :=
  (nextOf platform memory)^[count] first

/-- Following `next` never comes to `NULL`. -/
def Endless (memory : ByteMemory) (first : Nat) : Prop :=
  ∀ count, regionAt platform memory first count ≠ 0

/-- A gap that the loop of `tso_mm_get_fit` measures is too short for a request: the one at the
start of the mapping, and the one behind each region that `next` comes to. -/
structure NeverFits (mm : TsoMmMapping) (memory : ByteMemory) (size : Nat) : Prop where
  start : platform.sub mm.firstRegion mm.start ≤ regionSize platform size
  behind : ∀ count, gapBehind platform mm memory
    (regionAt platform memory mm.firstRegion count) ≤ regionSize platform size

/-- Nothing that a call meets on its way along `next` ends it. -/
def Call.GoesRound (kernel : Kernel) (mm : TsoMmMapping) : Call → Prop
  | .alloc _ size =>
    regionSize platform size ≤ mm.free ∧ Endless platform kernel.memory mm.firstRegion ∧
      (AllocationStrategy.ofValue kernel.currentStrategy = some .firstFit →
        NeverFits platform mm kernel.memory size)
  | .free addr =>
    Endless platform kernel.memory mm.firstRegion ∧
      ∀ count, platform.add (regionAt platform kernel.memory mm.firstRegion count)
        platform.headerSize ≠ addr
  | .switchStrategy _ => False

end

variable {platform : Platform} {kernel : Kernel} {mm : TsoMmMapping} {memory : ByteMemory}

theorem regionAt_succ (memory : ByteMemory) (first count : Nat) :
    regionAt platform memory first (count + 1) =
      nextOf platform memory (regionAt platform memory first count) :=
  Function.iterate_succ_apply' _ _ _

theorem regionAt_next (memory : ByteMemory) (first count : Nat) :
    regionAt platform memory (nextOf platform memory first) count =
      regionAt platform memory first (count + 1) :=
  (Function.iterate_succ_apply _ _ _).symm

/-! ### The walk of `sys_tso_mm_free` -/

/-- What the variables of the walk satisfy at the beginning of each round. -/
structure Walk.Proper (platform : Platform) (walk : Walk) : Prop where
  previous : walk.previousRegion ≠ 0
  data : walk.dataAdd = platform.add walk.region platform.headerSize

/-- The walk ends at `NULL`, at a match, and in front of `NULL`. -/
def Walk.StopsAt (platform : Platform) (memory : ByteMemory) (addr region : Nat) : Prop :=
  region = 0 ∨ platform.add region platform.headerSize = addr ∨ nextOf platform memory region = 0

/-- A round of the walk ends it or moves to the next region. -/
theorem Walk.Proper.follows {addr : Nat} {walk : Walk} (proper : walk.Proper platform) :
    BoundedLoop.Follows (Walk.round platform kernel mm addr) Walk.region
      (nextOf platform kernel.memory) (Walk.StopsAt platform kernel.memory addr)
      (Walk.Proper platform) walk := by
  unfold BoundedLoop.Follows Walk.StopsAt Walk.round
  rw [proper.data]
  by_cases null : walk.region = 0
  · exact Or.inl ⟨Or.inl null, _, if_pos null⟩
  by_cases found : platform.add walk.region platform.headerSize = addr
  · left
    refine ⟨Or.inr (Or.inl found), ?_⟩
    simp only [null, found, if_true, if_false, readNext, readSize, writeNext, proper.previous,
      bind, Except.bind]
    exact ⟨_, rfl⟩
  by_cases last : nextOf platform kernel.memory walk.region = 0
  · left
    refine ⟨Or.inr (Or.inr last), ?_⟩
    unfold nextOf at last
    simp only [null, found, if_true, if_false, readNext, last, bind, Except.bind]
    exact ⟨_, rfl⟩
  · right
    refine ⟨by simp only [null, found, last, or_self, not_false_eq_true],
      Walk.at platform walk.region (nextOf platform kernel.memory walk.region), ?_, ⟨null, rfl⟩,
      rfl⟩
    unfold nextOf at last ⊢
    simp only [null, found, if_false, readNext, last, bind, Except.bind]

theorem sysTsoMmFree_eq_run (mapped : kernel.currentMm = some mm) {addr : Nat}
    (listed : mm.firstRegion ≠ 0)
    (other : platform.add mm.firstRegion platform.headerSize ≠ addr) (fuel : Nat) :
    sysTsoMmFree platform fuel addr kernel =
      BoundedLoop.run .timeout (Walk.round platform kernel mm addr) fuel
        (Walk.at platform mm.firstRegion (nextOf platform kernel.memory mm.firstRegion)) := by
  unfold sysTsoMmFree nextOf
  simp only [mapped, listed, other, if_false, readNext, bind, Except.bind]

/-- `sys_tso_mm_free` never returns exactly when following `next` comes neither to `NULL` nor to
the region that the address belongs to. -/
theorem hangs_free_iff (mapped : kernel.currentMm = some mm) (addr : Nat) :
    kernel.Hangs platform (.free addr) ↔ (Call.free addr).GoesRound platform kernel mm := by
  by_cases empty : mm.firstRegion = 0
  · constructor
    · intro hangs
      have returned := hangs 0
      simp only [invoke, sysTsoMmFree, mapped, empty, if_true] at returned
      cases returned
    · rintro ⟨endless, _⟩
      exact absurd empty (endless 0)
  by_cases here : platform.add mm.firstRegion platform.headerSize = addr
  · constructor
    · intro hangs
      have returned := hangs 0
      simp only [invoke, sysTsoMmFree, mapped, empty, here, if_true, if_false, readNext, readSize,
        bind, Except.bind] at returned
      cases returned
    · rintro ⟨_, unmatched⟩
      exact absurd here (unmatched 0)
  have proper : (Walk.at platform mm.firstRegion
      (nextOf platform kernel.memory mm.firstRegion)).Proper platform := ⟨empty, rfl⟩
  have walks : kernel.Hangs platform (.free addr) ↔ BoundedLoop.Spins Trap.timeout
      (Walk.round platform kernel mm addr) (Walk.at platform mm.firstRegion
        (nextOf platform kernel.memory mm.firstRegion)) :=
    forall_congr' fun fuel => iff_of_eq (congrArg (· = _)
      (sysTsoMmFree_eq_run mapped empty here fuel))
  rw [walks, BoundedLoop.spins_iff (fun _ invariant => Walk.Proper.follows invariant) proper]
  have orbit : ∀ count, (nextOf platform kernel.memory)^[count] (Walk.at platform mm.firstRegion
      (nextOf platform kernel.memory mm.firstRegion)).region =
        regionAt platform kernel.memory mm.firstRegion (count + 1) :=
    fun count => regionAt_next kernel.memory mm.firstRegion count
  simp only [orbit]
  constructor
  · intro never
    constructor
    · rintro (_ | count)
      · exact empty
      · exact fun null => never count (Or.inl null)
    · rintro (_ | count)
      · exact here
      · exact fun found => never count (Or.inr (Or.inl found))
  · rintro ⟨endless, unmatched⟩ count (null | found | last)
    · exact endless (count + 1) null
    · exact unmatched (count + 1) found
    · exact endless (count + 2) ((regionAt_succ _ _ _).trans last)

/-! ### The search of `sys_tso_mm_alloc` -/

/-- The search ends at `NULL`, and under `FIRST_FIT` at a gap that is large enough. -/
def Scan.StopsAt (platform : Platform) (strategy : Option AllocationStrategy) (size : Nat)
    (position : Nat × Nat) : Prop :=
  position.1 = 0 ∨ strategy = some .firstFit ∧ regionSize platform size < position.2

/-- The region that the search comes to next, and the gap before it. -/
def Scan.position (scan : Scan) : Nat × Nat := (scan.nextRegion, scan.availableSize)

/-- The next region of the search, and the gap behind this one. -/
def Scan.nextPosition (platform : Platform) (mm : TsoMmMapping) (memory : ByteMemory)
    (position : Nat × Nat) : Nat × Nat :=
  (nextOf platform memory position.1, gapBehind platform mm memory position.1)

/-- A round of the search ends it or moves to the next region and the gap behind this one. -/
theorem Scan.follows {size : Nat} (value : BitVec 32) (scan : Scan) :
    BoundedLoop.Follows (Scan.round platform (fun _ => value) mm memory size)
      Scan.position (Scan.nextPosition platform mm memory)
      (Scan.StopsAt platform (AllocationStrategy.ofValue value) size) (fun _ => True) scan := by
  by_cases taken : AllocationStrategy.ofValue value = some .firstFit ∧
      regionSize platform size < scan.availableSize
  · refine Or.inl ⟨Or.inr taken,
      (scan.previousRegion, if scan.previousRegion = 0 then .start else .ok), ?_⟩
    unfold Scan.round
    rw [if_pos taken.2, if_pos taken.1]
  obtain ⟨other, same, went⟩ : ∃ other : Scan, other.nextRegion = scan.nextRegion ∧
      scan.round platform (fun _ => value) mm memory size = other.advance platform mm memory := by
    unfold Scan.round
    split
    · rename_i enough
      rw [if_neg fun first => taken ⟨first, enough⟩]
      exact ⟨{ scan with
        toChoice := scan.toChoice.consider (fun _ => value) scan.availableSize
          scan.previousRegion }, rfl, rfl⟩
    · exact ⟨scan, rfl, rfl⟩
  unfold BoundedLoop.Follows
  rw [went]
  unfold Scan.advance
  by_cases null : scan.nextRegion = 0
  · refine Or.inl ⟨Or.inl null, other.leave, ?_⟩
    simp only [same, null, if_true]
  · refine Or.inr ⟨fun stops => stops.elim null taken, ?_⟩
    simp only [same, null, if_false, readNext, readSize, bind, Except.bind]
    exact ⟨_, rfl, trivial, rfl⟩

/-- The regions and gaps that the search comes to. -/
theorem iterate_search (mm : TsoMmMapping) (memory : ByteMemory) (first gap count : Nat) :
    (Scan.nextPosition platform mm memory)^[count + 1] (first, gap) =
      (regionAt platform memory first (count + 1),
        gapBehind platform mm memory (regionAt platform memory first count)) := by
  induction count with
  | zero => rfl
  | succ count inductionHypothesis =>
    rw [Function.iterate_succ_apply', inductionHypothesis, regionAt_succ _ _ (count + 1)]
    rfl

theorem placeRegion_ne_timeout {environment : Environment} {size fit position : Nat}
    {state : FitConditions} :
    placeRegion platform environment kernel mm size fit state position ≠ .error .timeout := by
  unfold placeRegion writeSize writeNext readNext
  by_cases null : position = 0
  · simp [null, bind, Except.bind]
  · cases state <;> by_cases none : fit = 0 <;> simp [null, none, bind, Except.bind]

/-- An allocation goes on for ever only in the search. -/
theorem allocMapped_eq_timeout_iff {fuel size : Nat} {observed : Nat → BitVec 32}
    {environment : Environment} :
    allocMapped platform fuel observed environment size kernel mm = .error .timeout ↔
      regionSize platform size ≤ mm.free ∧
        tsoMmGetFit platform fuel observed mm kernel.memory size .noFit = .error .timeout := by
  unfold allocMapped
  dsimp only
  by_cases short : mm.free < regionSize platform size
  · simp [short, not_le.mpr short]
  rw [if_neg short]
  cases fitted : tsoMmGetFit platform fuel observed mm kernel.memory size .noFit with
  | error trap => simp [not_lt.mp short, bind, Except.bind]
  | ok result =>
    obtain ⟨fit, state⟩ := result
    simp only [bind, Except.bind, reduceCtorEq, and_false, iff_false]
    cases state with
    | ok =>
      by_cases null : fit = 0
      · simp [readSize, null]
      · simp only [readSize, null, if_false]
        exact placeRegion_ne_timeout
    | start => exact placeRegion_ne_timeout
    | noFit => rintro ⟨⟩

/-- `sys_tso_mm_alloc` never returns exactly when the counter lets the request pass, following
`next` never comes to `NULL`, and under `FIRST_FIT` no gap on the way is large enough. -/
theorem hangs_alloc_iff (mapped : kernel.currentMm = some mm) (environment : Environment)
    (size : Nat) :
    kernel.Hangs platform (.alloc environment size) ↔
      (Call.alloc environment size).GoesRound platform kernel mm := by
  have searches : kernel.Hangs platform (.alloc environment size) ↔ ∀ fuel,
      regionSize platform size ≤ mm.free ∧
        tsoMmGetFit platform fuel (fun _ => kernel.currentStrategy) mm kernel.memory size .noFit =
          .error .timeout := by
    refine forall_congr' fun fuel => ?_
    have uses : kernel.Uses platform environment mm := Or.inl mapped
    rw [← allocMapped_eq_timeout_iff, ← uses.alloc_eq]
    rfl
  rw [searches, forall_and_left]
  refine and_congr_right fun _ => ?_
  by_cases empty : mm.firstRegion = 0
  · constructor
    · intro hangs
      have returned := hangs 0
      simp only [tsoMmGetFit, empty, if_true] at returned
      cases returned
    · rintro ⟨endless, _⟩
      exact absurd empty (endless 0)
  have round : ∀ scan : Scan, True → BoundedLoop.Follows
      (Scan.round platform (fun _ => kernel.currentStrategy) mm kernel.memory size) Scan.position
      (Scan.nextPosition platform mm kernel.memory)
      (Scan.StopsAt platform (AllocationStrategy.ofValue kernel.currentStrategy) size)
      (fun _ => True) scan := fun scan _ => scan.follows kernel.currentStrategy
  have first : (Scan.init platform (fun _ => kernel.currentStrategy) mm .noFit).position =
      (mm.firstRegion, platform.sub mm.firstRegion mm.start) := rfl
  unfold tsoMmGetFit
  simp only [empty, if_false]
  refine (BoundedLoop.spins_iff round trivial).trans ?_
  rw [first]
  constructor
  · intro never
    refine ⟨?_, fun first => ⟨not_lt.mp fun longer => never 0 (Or.inr ⟨first, longer⟩), ?_⟩⟩
    · rintro (_ | count)
      · exact empty
      · intro null
        refine never (count + 1) ?_
        rw [iterate_search]
        exact Or.inl null
    · intro count
      refine not_lt.mp fun longer => never (count + 1) ?_
      rw [iterate_search]
      exact Or.inr ⟨first, longer⟩
  · rintro ⟨endless, short⟩ (_ | count) stops
    · rcases stops with null | ⟨first, longer⟩
      · exact empty null
      · exact absurd longer (not_lt.mpr (short first).start)
    · rw [iterate_search] at stops
      rcases stops with null | ⟨first, longer⟩
      · exact endless (count + 1) null
      · exact absurd longer (not_lt.mpr ((short first).behind count))

/-- Over any headers a call of a task with a mapping never returns exactly when nothing on its way
along `next` ends it. -/
theorem hangs_iff (mapped : kernel.currentMm = some mm) (call : Call) :
    kernel.Hangs platform call ↔ call.GoesRound platform kernel mm := by
  cases call with
  | alloc environment size => exact hangs_alloc_iff mapped environment size
  | free addr => exact hangs_free_iff mapped addr
  | switchStrategy strategy => exact iff_of_false (fun hangs => by cases hangs 0) id

theorem hangs_iff_sample :
    (⟨0, some ⟨0x1000, 0x1000, 32768, 32752⟩,
        ByteMemory.store 4 (fun _ => 0) 0x1000 0x1000⟩ : Kernel).Hangs Platform.i386
      (.free 0x2000) := by
  have itself : ∀ count, regionAt Platform.i386 (ByteMemory.store 4 (fun _ => 0) 0x1000 0x1000)
      0x1000 count = 0x1000 := fun count => Function.iterate_fixed (by decide +kernel) count
  refine (hangs_iff rfl _).mpr ⟨fun count => ?_, fun count => ?_⟩
  · rw [itself]
    decide
  · rw [itself]
    decide

/-! ### One word makes the calls hang -/

/-- The writes of a task that store a word, byte by byte. -/
def writesOf : Nat → Nat → Nat → List Action
  | 0, _, _ => []
  | width + 1, addr, value =>
    .write addr (UInt8.ofNat value) :: writesOf width (addr + 1) (value / 256)

/-- A task may store a word in its mapping. -/
theorem run_writesOf (mapped : kernel.currentMm = some mm) {width addr value : Nat}
    (low : mm.start ≤ addr) (high : addr + width ≤ mm.start + mm.size) :
    Run (TamperStep platform) kernel (writesOf width addr value)
      { kernel with memory := kernel.memory.store width addr value } := by
  induction width generalizing kernel addr value with
  | zero => exact Run.nil kernel
  | succ width inductionHypothesis =>
    have first : TamperStep platform kernel (.write addr (UInt8.ofNat value))
        { kernel with memory := Function.update kernel.memory addr (UInt8.ofNat value) } :=
      ⟨mm, mapped, low, by omega, rfl⟩
    have still : (⟨kernel.currentStrategy, kernel.currentMm,
        Function.update kernel.memory addr (UInt8.ofNat value)⟩ : Kernel).currentMm = some mm :=
      mapped
    exact Run.cons first (inductionHypothesis still (by omega) (by omega))

/-- When the last region links to the first, following `next` stays on the regions of the list. -/
theorem Layout.regionAt_closed {layout : Layout platform} {first : Nat} {front : List Region}
    {last : Region} (split : layout.regions = front ++ [last])
    (listed : Listed platform memory first layout.regions) (count : Nat) :
    regionAt platform (memory.store platform.wordBytes last.addr first) first count ∈
      layout.regions.map Region.addr := by
  have start : first ∈ layout.regions.map Region.addr := by
    cases shape : layout.regions with
    | nil =>
      rw [split] at shape
      exact absurd shape (List.append_ne_nil_of_right_ne_nil _ (List.cons_ne_nil _ _))
    | cons region rest =>
      rw [shape] at listed
      rw [(listed_cons.mp listed).1]
      exact List.mem_cons_self
  have word : first < platform.modulus := by
    obtain ⟨region, member, rfl⟩ := List.mem_map.mp start
    have inside := (layout.within member).2
    have := region.addr_lt_top platform
    have := layout.fits
    unfold Layout.stop at inside
    omega
  have walk := listed.linked
  rw [split, List.map_append, List.map_singleton] at walk
  obtain ⟨before, _, _⟩ := LinkedSegment.segment_append_cons.mp walk
  refine LinkedSegment.iterate_mem (fun node member => ?_) start count
  obtain ⟨region, regionMember, rfl⟩ := List.mem_map.mp member
  rw [split] at regionMember
  rcases List.mem_append.mp regionMember with inFront | isLast
  · have kept : SameHeader platform memory
        (memory.store platform.wordBytes last.addr first) region.addr :=
      layout.sameHeader split (List.mem_append_left [] inFront)
        fun byte outside => store_of_outside outside
    rw [nextOf_congr kept, split, List.map_append, List.mem_append]
    exact (before.next_mem _ (List.mem_map_of_mem inFront)).imp_right List.mem_singleton.mpr
  · rw [List.mem_singleton.mp isLast, nextOf_store word]
    exact start

/-- From every state with a live region that a run of legal calls reaches, a task that overwrites
one word of its mapping, the `next` of its last region by the address of its first, leaves a state
where a free of any address that is not live never returns, nor does an allocation under `BEST_FIT`
or `WORST_FIT` that the counter lets pass. -/
theorem hangs_of_run {start kernel : Kernel} {events : List Event} (fresh : start.Fresh)
    (run : Run (LegalStep platform) start events kernel) {mm : TsoMmMapping}
    (mapped : kernel.currentMm = some mm) {regions : List Region}
    (listed : Listed platform kernel.memory mm.firstRegion regions) (held : regions ≠ []) :
    ∃ front last after, regions = front ++ [last] ∧
      Run (TamperStep platform) kernel
        (writesOf platform.wordBytes last.addr mm.firstRegion) after ∧
      (∀ addr, (∀ region ∈ regions, region.payload platform ≠ addr) →
        after.Hangs platform (.free addr)) ∧
      ∀ (strategy : AllocationStrategy) (environment : Environment) (size : Nat),
        strategy ≠ .firstFit → regionSize platform size ≤ mm.free →
          (sysTsoMmSwitchStrategy strategy.value after).kernel.Hangs platform
            (.alloc environment size) := by
  obtain ⟨task, models⟩ := models_of_run fresh run
  obtain ⟨heap, _, represents⟩ := models.represents mapped
  obtain rfl := represents.listed.unique listed
  obtain ⟨front, last, split⟩ := List.eq_nil_or_concat heap.regions |>.resolve_left held
  rw [List.concat_eq_append] at split
  have inside := heap.within (split ▸ List.mem_append_right _ List.mem_cons_self : last ∈ _)
  have low : mm.start ≤ last.addr := represents.start ▸ inside.1
  have high : last.addr + platform.wordBytes ≤ mm.start + mm.size := by
    have ends := inside.2
    rw [represents.start, represents.size]
    unfold Region.top Layout.stop Platform.headerSize at ends
    omega
  obtain ⟨after, tampered, afterMapped, stored⟩ : ∃ after, Run (TamperStep platform) kernel
      (writesOf platform.wordBytes last.addr mm.firstRegion) after ∧
        after.currentMm = some mm ∧ after.memory =
          kernel.memory.store platform.wordBytes last.addr mm.firstRegion :=
    ⟨_, run_writesOf mapped low high, mapped, rfl⟩
  have closed := heap.regionAt_closed split represents.listed
  rw [← stored] at closed
  have endless : Endless platform after.memory mm.firstRegion := by
    intro count null
    obtain ⟨region, member, same⟩ := List.mem_map.mp (closed count)
    exact heap.addr_ne_zero member (same.trans null)
  refine ⟨front, last, after, split, tampered, ?_, ?_⟩
  · intro addr unknown
    refine (hangs_free_iff afterMapped addr).mpr ⟨endless, fun count found => ?_⟩
    obtain ⟨region, member, same⟩ := List.mem_map.mp (closed count)
    rw [← same] at found
    exact unknown region member ((heap.matches_iff member).mp found)
  · intro strategy environment size other passes
    have switched : (sysTsoMmSwitchStrategy strategy.value after).kernel.currentMm = some mm :=
      afterMapped
    refine (hangs_alloc_iff switched environment size).mpr ⟨passes, endless, fun first => ?_⟩
    exact absurd (Option.some.inj ((ofValue_value strategy).symm.trans first)) other

/-- The only region of a task is linked to itself. -/
theorem hangs_sample : ∃ kernel after,
    Run (LegalStep Platform.i386) (Kernel.boot fun _ => 0)
        [⟨.alloc .secondPage 8, 0, some 0x1008⟩] kernel ∧
      Run (TamperStep Platform.i386) kernel
        [.write 0x1000 0, .write 0x1001 0x10, .write 0x1002 0, .write 0x1003 0] after ∧
        after.Hangs Platform.i386 (.free 0x2000) := by
  obtain ⟨kernel, run, mapped, listed⟩ := exists_run_firstBlock
  obtain ⟨front, last, after, split, tampered, frees, _⟩ :=
    hangs_of_run (Kernel.fresh_boot _) run mapped listed (List.cons_ne_nil _ _)
  obtain ⟨_, rfl⟩ : front = [] ∧ (⟨0x1000, 8⟩ : Region) = last := by
    have single := List.append_inj' (split.symm.trans (List.nil_append _).symm) rfl
    exact ⟨single.1, (List.singleton_inj.mp single.2).symm⟩
  refine ⟨kernel, after, run, tampered, frees 0x2000 fun region member => ?_⟩
  rw [List.mem_singleton.mp member]
  decide

end TsoAlloc
