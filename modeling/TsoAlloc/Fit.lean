/-
This file proves what `tso_mm_get_fit` computes. On a layout the three formulas of the
loop measure the gaps exactly, in address order, so the loop over memory is a loop over
the list of gaps (`scanRooms`). With one strategy in force throughout, that loop is the
strategy's own choice: the first, the shortest or the longest of the gaps that are large
enough.
-/

import TsoAlloc.Headers

namespace TsoAlloc

open Extents

/-- The pointer to a region, `NULL` when there is none. -/
def pointerTo : Option Region → Nat
  | none => 0
  | some region => region.addr

/-- What a search that settles on a gap returns: the region before it, or the start. -/
def settle (room : Room Region) : Nat × FitConditions :=
  (pointerTo room.behind, if pointerTo room.behind = 0 then .start else .ok)

/-- What the search returns when it settles on the given gap, or on none. -/
def settleOn : Option (Room Region) → Nat × FitConditions
  | none => (0, .noFit)
  | some room => settle room

/-- The loop of `tso_mm_get_fit` over measured gaps. -/
def scanRooms (observed : Nat → BitVec 32) (bytes : Nat) (choice : Choice) :
    List (Room Region) → Nat × FitConditions
  | [] => choice.leave
  | room :: rest =>
    if bytes < room.length then
      if AllocationStrategy.ofValue (observed choice.reads) = some .firstFit then settle room
      else scanRooms observed bytes
        (choice.consider observed room.length (pointerTo room.behind)) rest
    else scanRooms observed bytes choice rest

variable {platform : Platform} {memory : ByteMemory}

/-! ### The loop measures the gaps -/

theorem regionSize_of_top_le {region : Region} {stop : Nat} (valid : 0 < region.addr)
    (inside : region.top platform ≤ stop) (fits : stop ≤ platform.modulus) :
    regionSize platform region.size = platform.headerSize + region.size := by
  refine Platform.add_of_lt ?_
  unfold Region.top at inside
  omega

theorem advance_nil {mm : TsoMmMapping} {scan : Scan}
    (listed : Listed platform memory scan.nextRegion []) :
    Scan.advance platform mm memory scan = .ok (.inr scan.leave) := by
  rw [Scan.advance, if_pos (listed_nil.mp listed)]

/-- Before the end of the list a round steps to the next region and measures the gap behind
the region it leaves. -/
theorem advance_cons {mm : TsoMmMapping} {scan : Scan} {region : Region} {rest : List Region}
    {lo : Nat} (lo_pos : 0 < lo) (fits : mm.start + mm.size ≤ platform.modulus)
    (listed : Listed platform memory scan.nextRegion (region :: rest))
    (packed : Packed Region.addr (Region.top platform) lo (mm.start + mm.size) (region :: rest)) :
    Scan.advance platform mm memory scan =
      .ok (.inl { scan with
        nextRegion := nextOf platform memory region.addr
        previousRegion := region.addr
        availableSize :=
          roomTop Region.addr (mm.start + mm.size) rest - region.top platform }) := by
  obtain ⟨here, valid, size, tail⟩ := listed_cons.mp listed
  obtain ⟨low, _, packedTail⟩ := packed
  have room := packedTail.le_roomTop
  have high := packedTail.roomTop_le
  have exactSize := regionSize_of_top_le (by omega) packedTail.le fits
  have below := region.addr_lt_top platform
  have limit : platform.sub
      (if nextOf platform memory region.addr ≠ 0 then nextOf platform memory region.addr
        else platform.add mm.start mm.size) region.addr =
      roomTop Region.addr (mm.start + mm.size) rest - region.addr := by
    cases rest with
    | nil =>
      rw [if_neg (not_not.mpr (listed_nil.mp tail))]
      exact Platform.sub_add_of_le (by omega) (by omega) fits
    | cons next others =>
      obtain ⟨there, validNext, _, _⟩ := listed_cons.mp tail
      have nextTop := packedTail.2.2.le
      have nextBelow := next.addr_lt_top platform
      have behind : region.top platform ≤ next.addr := room
      rw [there, if_pos validNext]
      exact Platform.sub_of_le (by omega) (by omega)
  rw [Scan.advance, if_neg (here ▸ valid)]
  have measured : platform.sub (roomTop Region.addr (mm.start + mm.size) rest - region.addr)
      (regionSize platform region.size) =
        roomTop Region.addr (mm.start + mm.size) rest - region.top platform := by
    rw [exactSize, Platform.sub_of_le (by unfold Region.top at room; omega) (by omega)]
    unfold Region.top
    omega
  unfold sizeOf at size
  simp only [readNext, readSize, here, if_neg valid, bind, Except.bind, size]
  unfold nextOf at limit ⊢
  rw [limit, measured]

/-- A round tests its gap as the loop over gaps does, if what follows the round is the rest of
that loop, whatever the round remembers. -/
theorem run_round {observed : Nat → BitVec 32} {mm : TsoMmMapping} {size fuel : Nat}
    {room : Room Region} {others : List (Room Region)} {scan : Scan}
    (previous : scan.previousRegion = pointerTo room.behind)
    (available : scan.availableSize = room.length)
    (follows : ∀ choice : Choice,
      BoundedLoop.resume .timeout (Scan.round platform observed mm memory size) fuel
          (Scan.advance platform mm memory { scan with toChoice := choice }) =
        .ok (scanRooms observed (regionSize platform size) choice others)) :
    BoundedLoop.run .timeout (Scan.round platform observed mm memory size) (fuel + 1) scan =
      .ok (scanRooms observed (regionSize platform size) scan.toChoice (room :: others)) := by
  rw [BoundedLoop.run_succ, Scan.round, scanRooms, available, previous]
  split
  · split
    · rfl
    · exact follows _
  · exact follows scan.toChoice

/-- The loop of `tso_mm_get_fit` over memory is the loop over the gaps. -/
theorem run_scan {observed : Nat → BitVec 32} {mm : TsoMmMapping} {size fuel lo : Nat}
    (behind : Option Region) {rest : List Region} {scan : Scan} (lo_pos : 0 < lo)
    (fits : mm.start + mm.size ≤ platform.modulus)
    (listed : Listed platform memory scan.nextRegion rest)
    (packed : Packed Region.addr (Region.top platform) lo (mm.start + mm.size) rest)
    (previous : scan.previousRegion = pointerTo behind)
    (available : scan.availableSize = roomTop Region.addr (mm.start + mm.size) rest - lo)
    (enough : rest.length < fuel) :
    BoundedLoop.run .timeout (Scan.round platform observed mm memory size) fuel scan =
      .ok (scanRooms observed (regionSize platform size) scan.toChoice
        (rooms Region.addr (Region.top platform) behind lo (mm.start + mm.size) rest)) := by
  induction rest generalizing behind lo scan fuel with
  | nil =>
    obtain ⟨fuel, rfl⟩ : ∃ less, fuel = less + 1 := ⟨fuel - 1, by omega⟩
    refine run_round previous available fun choice => ?_
    have ends : Listed platform memory { scan with toChoice := choice }.nextRegion [] := listed
    rw [advance_nil ends]
    rfl
  | cons region rest inductionHypothesis =>
    obtain ⟨fuel, rfl⟩ : ∃ less, fuel = less + 1 := ⟨fuel - 1, by omega⟩
    refine run_round previous available fun choice => ?_
    have steps : Listed platform memory { scan with toChoice := choice }.nextRegion
        (region :: rest) := listed
    obtain ⟨_, _, _, tail⟩ := listed_cons.mp listed
    obtain ⟨low, ordered, packedTail⟩ := packed
    rw [advance_cons lo_pos fits steps ⟨low, ordered, packedTail⟩]
    have shorter : rest.length < fuel := by
      rw [List.length_cons] at enough
      omega
    exact inductionHypothesis (some region) (by omega) tail packedTail rfl rfl shorter

theorem Layout.stop_eq (layout : Layout platform) {mm : TsoMmMapping}
    (start : mm.start = layout.start) (mapped : mm.size = platform.initialSize) :
    mm.start + mm.size = layout.stop := by
  rw [start, mapped]
  rfl

/-- Before its loop the scan measures the gap before the first region. -/
theorem Layout.availableSize_init (layout : Layout platform) {mm : TsoMmMapping}
    (observed : Nat → BitVec 32) (state : FitConditions) (start : mm.start = layout.start)
    (listed : Listed platform memory mm.firstRegion layout.regions)
    (nonempty : layout.regions ≠ []) :
    (Scan.init platform observed mm state).availableSize =
      roomTop Region.addr (mm.start + mm.size) layout.regions - layout.start := by
  cases shape : layout.regions with
  | nil => exact absurd shape nonempty
  | cons region rest =>
    have inside := layout.within (shape ▸ List.mem_cons_self : region ∈ layout.regions)
    have below := region.addr_lt_top platform
    have fits := layout.fits
    unfold Layout.stop at inside
    rw [shape] at listed
    show platform.sub mm.firstRegion mm.start = _
    rw [(listed_cons.mp listed).1, start, Platform.sub_of_le inside.1 (by omega)]
    rfl

/-- `tso_mm_get_fit` on the regions of a layout. -/
theorem tsoMmGetFit_eq (layout : Layout platform) {mm : TsoMmMapping} {fuel size : Nat}
    {observed : Nat → BitVec 32} (state : FitConditions) (start : mm.start = layout.start)
    (mapped : mm.size = platform.initialSize)
    (listed : Listed platform memory mm.firstRegion layout.regions)
    (enough : layout.regions.length < fuel) :
    tsoMmGetFit platform fuel observed mm memory size state =
      .ok (if layout.regions = [] then (0, .start)
        else scanRooms observed (regionSize platform size) (Choice.init platform observed mm state)
          layout.gaps) := by
  unfold tsoMmGetFit
  by_cases empty : layout.regions = []
  · rw [if_pos (listed.first_eq_zero.mpr empty), if_pos empty]
  rw [if_neg fun none => empty (listed.first_eq_zero.mp none), if_neg empty]
  have stop := layout.stop_eq start mapped
  have packed : Packed Region.addr (Region.top platform) layout.start (mm.start + mm.size)
      layout.regions := by rw [stop]; exact layout.packed
  have fits : mm.start + mm.size ≤ platform.modulus := by rw [stop]; exact layout.fits
  have available := layout.availableSize_init observed state start listed empty
  rw [run_scan none layout.start_pos fits listed packed rfl available enough, stop]
  rfl

/-! ### The choice of a strategy -/

theorem ofValue_value (strategy : AllocationStrategy) :
    AllocationStrategy.ofValue strategy.value = some strategy := by
  cases strategy <;> decide

theorem AllocationStrategy.value_injective : Function.Injective AllocationStrategy.value := by
  intro left right same
  have known := ofValue_value left
  rw [same, ofValue_value right] at known
  exact (Option.some.inj known).symm

/-- Gaps that are too small are passed over. -/
theorem scanRooms_filter (observed : Nat → BitVec 32) (bytes : Nat) (choice : Choice)
    (gaps : List (Room Region)) :
    scanRooms observed bytes choice gaps =
      scanRooms observed bytes choice (gaps.filter fun room => bytes < room.length) := by
  induction gaps generalizing choice with
  | nil => rfl
  | cons room rest inductionHypothesis =>
    by_cases large : bytes < room.length
    · simp only [List.filter_cons, large, decide_true, if_true, scanRooms]
      rw [inductionHypothesis]
    · simp only [List.filter_cons, large, decide_false, if_false, scanRooms, Bool.false_eq_true]
      exact inductionHypothesis choice

/-- As long as no read finds `FIRST_FIT`, every large enough gap is considered. -/
theorem scanRooms_eq_foldl {observed : Nat → BitVec 32} {bytes : Nat}
    {gaps : List (Room Region)} (choice : Choice)
    (neverFirst : ∀ read, AllocationStrategy.ofValue (observed read) ≠ some .firstFit)
    (large : ∀ room ∈ gaps, bytes < room.length) :
    scanRooms observed bytes choice gaps =
      (gaps.foldl (fun choice room =>
        choice.consider observed room.length (pointerTo room.behind)) choice).leave := by
  induction gaps generalizing choice with
  | nil => rfl
  | cons room rest inductionHypothesis =>
    rw [scanRooms, if_pos (large room List.mem_cons_self), if_neg (neverFirst _),
      inductionHypothesis _ fun other member => large other (List.mem_cons_of_mem _ member),
      List.foldl_cons]

/-- What the loop remembers when the best gap so far is the given one, if any. -/
def Choice.Remembers (seed : Nat) (best : Option (Room Region)) (choice : Choice) : Prop :=
  match best with
  | none => choice.bestMatch = 0 ∧ choice.bestSize = seed ∧ choice.state = .noFit
  | some room =>
    choice.bestMatch = pointerTo room.behind ∧ choice.bestSize = room.length ∧ choice.state = .ok

theorem Choice.Remembers.leave {seed : Nat} {best : Option (Room Region)} {choice : Choice}
    (remembers : choice.Remembers seed best) : choice.leave = settleOn best := by
  cases best with
  | none =>
    obtain ⟨bestMatch, _, state⟩ := remembers
    rw [Choice.leave, bestMatch, state]
    rfl
  | some room =>
    obtain ⟨bestMatch, _, state⟩ := remembers
    rw [Choice.leave, bestMatch, state, settleOn, settle]
    simp only [true_and]

/-- Considering gap after gap keeps the one that beats all the others, the first among equals. -/
theorem foldl_consider {observed : Nat → BitVec 32} {strategy : AllocationStrategy}
    {beats : Room Region → Room Region → Prop} [DecidableRel beats] {seed : Nat}
    {gaps : List (Room Region)}
    (constant : ∀ read, AllocationStrategy.ofValue (observed read) = some strategy)
    (decides : ∀ room best : Room Region,
      isBest (some strategy) room.length best.length = decide (beats room best))
    (seeded : ∀ room ∈ gaps, isBest (some strategy) room.length seed = true)
    {best : Option (Room Region)} {choice : Choice} (remembers : choice.Remembers seed best) :
    (gaps.foldl (fun choice room =>
        choice.consider observed room.length (pointerTo room.behind)) choice).Remembers seed
      (gaps.foldl (List.argAux beats) best) := by
  induction gaps generalizing best choice with
  | nil => exact remembers
  | cons room rest inductionHypothesis =>
    refine inductionHypothesis
      (fun other member => seeded other (List.mem_cons_of_mem _ member)) ?_
    cases best with
    | none =>
      obtain ⟨_, bestSize, _⟩ := remembers
      have first := seeded room List.mem_cons_self
      refine ⟨?_, ?_, rfl⟩ <;> simp only [Choice.consider, constant, bestSize, first, if_true]
    | some previous =>
      obtain ⟨bestMatch, bestSize, _⟩ := remembers
      simp only [List.argAux, Choice.consider, constant, bestSize, bestMatch, decides]
      by_cases better : beats room previous
      · rw [if_pos better]
        refine ⟨?_, ?_, rfl⟩ <;> simp only [better, decide_true, if_true]
      · rw [if_neg better]
        refine ⟨?_, ?_, rfl⟩ <;> simp only [better, decide_false, if_false, Bool.false_eq_true]

/-- With one strategy in force, the loop settles on the gap that the strategy picks. -/
theorem scanRooms_constant {observed : Nat → BitVec 32} {strategy : AllocationStrategy}
    {mm : TsoMmMapping} {bytes : Nat} {gaps : List (Room Region)}
    (constant : ∀ read, AllocationStrategy.ofValue (observed read) = some strategy)
    (mapped : mm.size = platform.initialSize)
    (bounded : ∀ room ∈ gaps, room.length ≤ platform.initialSize) :
    scanRooms observed bytes (Choice.init platform observed mm .noFit) gaps =
      settleOn (Layout.pick strategy (gaps.filter fun room => bytes < room.length)) := by
  rw [scanRooms_filter]
  have large : ∀ room ∈ gaps.filter (fun room => bytes < room.length), bytes < room.length :=
    fun room member => of_decide_eq_true (List.mem_filter.mp member).2
  have short : ∀ room ∈ gaps.filter (fun room => bytes < room.length),
      room.length ≤ platform.initialSize :=
    fun room member => bounded room (List.mem_filter.mp member).1
  generalize gaps.filter (fun room => bytes < room.length) = candidates at large short
  cases strategy with
  | firstFit =>
    cases candidates with
    | nil => rfl
    | cons room rest =>
      rw [scanRooms, if_pos (large room List.mem_cons_self), if_pos (constant _)]
      rfl
  | bestFit =>
    have seed : (Choice.init platform observed mm .noFit).Remembers
        (platform.add mm.size 1) none := by
      refine ⟨rfl, ?_, rfl⟩
      simp only [Choice.init, constant]
    rw [scanRooms_eq_foldl _ (fun read => by rw [constant read]; decide) large]
    refine (foldl_consider constant (fun room best => rfl) ?_ seed).leave
    intro room member
    have := short room member
    rw [mapped, Platform.add_of_lt platform.initialSize_lt_modulus]
    exact decide_eq_true (by omega)
  | worstFit =>
    have seed : (Choice.init platform observed mm .noFit).Remembers 0 none := by
      refine ⟨rfl, ?_, rfl⟩
      simp only [Choice.init, constant]
    rw [scanRooms_eq_foldl _ (fun read => by rw [constant read]; decide) large]
    refine (foldl_consider constant (fun room best => rfl) ?_ seed).leave
    intro room member
    have := large room member
    exact decide_eq_true (by omega)

end TsoAlloc
