/-
This file settles where each strategy places a region. Without regions the request goes to
the start of the mapping as soon as the counter admits it. With regions, the candidates are
the gaps strictly longer than `region_size`: `FIRST_FIT` takes the lowest one, `BEST_FIT`
the shortest and `WORST_FIT` the longest, the lowest one among equals. Whether there is a
candidate does not depend on the strategy, so neither does whether a request is met.
-/

import TsoAlloc.Placement

namespace TsoAlloc

open Extents Transition

/-! ### The order of a strategy -/

/-- A strategy does not rank another gap before this one. -/
def AllocationStrategy.Prefers (strategy : AllocationStrategy) (room other : Room Region) : Prop :=
  match strategy with
  | .firstFit => room.base ≤ other.base
  | .bestFit => room.length < other.length ∨ room.length = other.length ∧ room.base ≤ other.base
  | .worstFit => other.length < room.length ∨ room.length = other.length ∧ room.base ≤ other.base

section

variable (platform : Platform)

/-- The gap between two halves of the list is strictly longer than `region_size`. -/
def Candidate (size : Nat) (mm : TsoMmMapping) (regions front back : List Region) : Prop :=
  regions = front ++ back ∧ regionSize platform size < (gapAt platform mm front back).length

/-- What an allocation does with a request under a strategy. Without regions it goes by the
counter and places the region at the start; with regions it goes by the candidates and takes the
one that the strategy prefers. The new region comes between the two neighbours of its gap, and
the other regions stay as they are. -/
structure PlacesBy (strategy : AllocationStrategy) (memory : ByteMemory) (mm : TsoMmMapping)
    (size : Nat) (regions : List Region) (outcome : Outcome) : Prop where
  listed : Listed platform memory mm.firstRegion regions
  answers : outcome.ret = 0 ∨ outcome.ret = -1
  grantsEmpty : regions = [] → (outcome.ret = 0 ↔ regionSize platform size ≤ mm.free)
  refuses : regions ≠ [] →
    (outcome.ret = -1 ↔ ∀ front back, ¬ Candidate platform size mm regions front back)
  places : outcome.ret = 0 → ∃ placed front back, outcome.kernel.currentMm = some placed ∧
    LinkedInGap platform size mm placed memory outcome.kernel.memory front back ∧
      (regions = [] → gapBase platform mm front = mm.start) ∧
        (regions ≠ [] → Candidate platform size mm regions front back ∧
          ∀ other rest, Candidate platform size mm regions other rest →
            strategy.Prefers (gapAt platform mm front back) (gapAt platform mm other rest))

end

variable {platform : Platform}

/-- The gaps of a layout lie in increasing order. -/
theorem Layout.gaps_increasing (layout : Layout platform) :
    layout.gaps.Pairwise fun room later => room.base < later.base :=
  layout.packed.rooms_increasing fun region _ => region.addr_lt_top platform

/-- In a list of gaps in increasing order, what does not come later does not lie higher. -/
theorem base_le_of_idxOf_le {gaps : List (Room Region)}
    (increasing : gaps.Pairwise fun room later => room.base < later.base) {room other : Room Region}
    (member : room ∈ gaps) (otherMember : other ∈ gaps)
    (earlier : gaps.idxOf room ≤ gaps.idxOf other) : room.base ≤ other.base := by
  rcases Nat.eq_or_lt_of_le earlier with same | before
  · rw [List.idxOf_inj member |>.mp same]
  · have ordered := List.pairwise_iff_getElem.mp increasing _ _
      (List.idxOf_lt_length_of_mem member) (List.idxOf_lt_length_of_mem otherMember) before
    rw [List.getElem_idxOf, List.getElem_idxOf] at ordered
    exact ordered.le

/-- A strategy picks the gap that it prefers to every other. -/
theorem Layout.pick_prefers {strategy : AllocationStrategy} {gaps : List (Room Region)}
    (increasing : gaps.Pairwise fun room later => room.base < later.base) {room : Room Region}
    (picked : pick strategy gaps = some room) {other : Room Region} (member : other ∈ gaps) :
    strategy.Prefers room other := by
  have roomMember := mem_of_pick picked
  cases strategy with
  | firstFit =>
    obtain ⟨rest, rfl⟩ := List.head?_eq_some_iff.mp picked
    rcases List.mem_cons.mp member with rfl | later
    · exact le_rfl
    · exact (List.rel_of_pairwise_cons increasing later).le
  | bestFit =>
    obtain ⟨_, least, lowest⟩ := List.argmin_eq_some_iff.mp picked
    rcases Nat.lt_or_eq_of_le (least other member) with shorter | same
    · exact Or.inl shorter
    · exact Or.inr ⟨same, base_le_of_idxOf_le increasing roomMember member
        (lowest other member same.ge)⟩
  | worstFit =>
    obtain ⟨_, most, lowest⟩ := List.argmax_eq_some_iff.mp picked
    rcases Nat.lt_or_eq_of_le (most other member) with longer | same
    · exact Or.inl longer
    · exact Or.inr ⟨same.symm, base_le_of_idxOf_le increasing roomMember member
        (lowest other member same.ge)⟩

/-! ### One allocation -/

variable {kernel : Kernel} {mm : TsoMmMapping} {heap : Heap platform}

theorem Represents.candidate_iff (represents : Represents mm kernel.memory heap) {size : Nat}
    (fits : platform.headerSize + size < platform.modulus) :
    (∃ front back, Candidate platform size mm heap.regions front back) ↔
      heap.gapsAbove (platform.headerSize + size) ≠ [] := by
  have exactSize : regionSize platform size = platform.headerSize + size :=
    Platform.add_of_lt fits
  rw [heap.gapsAbove_ne_nil, ← represents.toDescribes.exists_gapLength, ← exactSize]
  rfl

theorem Represents.choose_eq_none_iff_candidate (represents : Represents mm kernel.memory heap)
    (strategy : AllocationStrategy) {size : Nat}
    (fits : platform.headerSize + size < platform.modulus) (nonempty : heap.regions ≠ []) :
    heap.choose strategy (platform.headerSize + size) = none ↔
      ∀ front back, ¬ Candidate platform size mm heap.regions front back := by
  rw [Layout.choose, if_neg nonempty, Layout.pick_eq_none, ← not_iff_not, ← ne_eq,
    ← represents.candidate_iff fits]
  push Not
  rfl

/-- Without regions, a strategy chooses nothing when the counter is short. -/
theorem Represents.choose_eq_none_iff_short (represents : Represents mm kernel.memory heap)
    (strategy : AllocationStrategy) {size : Nat}
    (fits : platform.headerSize + size < platform.modulus) (empty : heap.regions = []) :
    heap.choose strategy (platform.headerSize + size) = none ↔
      ¬ regionSize platform size ≤ mm.free := by
  have exactSize : regionSize platform size = platform.headerSize + size :=
    Platform.add_of_lt fits
  rw [heap.choose_of_empty empty, represents.free_of_empty empty, exactSize]
  split
  · rename_i short
    exact iff_of_false (Option.some_ne_none _) (not_not.mpr short)
  · rename_i long
    exact iff_of_true rfl long

/-- With regions, the gap that a strategy chooses is the candidate that it prefers. -/
theorem Represents.prefers_of_choose (represents : Represents mm kernel.memory heap)
    {strategy : AllocationStrategy} {size : Nat}
    (fits : platform.headerSize + size < platform.modulus) (nonempty : heap.regions ≠ [])
    {room : Room Region}
    (chosen : heap.choose strategy (platform.headerSize + size) = some room)
    {front back : List Region} (split : heap.regions = front ++ back)
    (base : gapBase platform mm front = room.base)
    (length : gapLength platform mm front back = room.length) :
    Candidate platform size mm heap.regions front back ∧
      ∀ other rest, Candidate platform size mm heap.regions other rest →
        strategy.Prefers (gapAt platform mm front back) (gapAt platform mm other rest) := by
  have exactSize : regionSize platform size = platform.headerSize + size :=
    Platform.add_of_lt fits
  have picked : Layout.pick strategy (heap.gapsAbove (platform.headerSize + size)) =
      some room := by
    rw [← chosen, Layout.choose, if_neg nonempty]
  have here : gapAt platform mm front back = ⟨front.getLast?, room.base, room.length⟩ := by
    rw [gapAt, base, length]
  refine ⟨⟨split, ?_⟩, ?_⟩
  · rw [here, exactSize]
    exact (heap.mem_gapsAbove.mp (Layout.mem_of_pick picked)).2
  · rintro other rest ⟨otherSplit, longer⟩
    rw [exactSize] at longer
    have gap := (represents.toDescribes.gap (otherSplit ▸ represents.listed)).2
    have member := heap.mem_gapsAbove.mpr ⟨gap, longer⟩
    have preferred := Layout.pick_prefers
      (heap.gaps_increasing.sublist List.filter_sublist) picked member
    rw [here]
    exact preferred

/-- An allocation that settles on the choice of a strategy places the region as the strategy
does. -/
theorem Represents.placesBy (represents : Represents mm kernel.memory heap)
    (environment : Environment) (strategy : AllocationStrategy) {size : Nat}
    (fits : platform.headerSize + size < platform.modulus) :
    PlacesBy platform strategy kernel.memory mm size heap.regions
      (settledOutcome platform environment kernel mm size
        (heap.choose strategy (platform.headerSize + size))) := by
  have noCandidate := represents.choose_eq_none_iff_candidate strategy fits
  have short := represents.choose_eq_none_iff_short strategy fits
  cases chosen : heap.choose strategy (platform.headerSize + size) with
  | none =>
    rw [chosen] at noCandidate short
    exact {
      listed := represents.listed
      answers := Or.inr rfl
      grantsEmpty := fun empty =>
        iff_of_false (show (-1 : Int) ≠ 0 by decide) ((short empty).mp rfl)
      refuses := fun nonempty => iff_of_true rfl ((noCandidate nonempty).mp rfl)
      places := fun granted => absurd granted (show (-1 : Int) ≠ 0 by decide) }
  | some room =>
    rw [chosen] at noCandidate short
    obtain ⟨front, back, base, length, placed⟩ :=
      represents.placed (heap.admits_of_choose chosen)
    have split := represents.listed.unique placed.before
    exact {
      listed := represents.listed
      answers := Or.inl rfl
      grantsEmpty := fun empty =>
        iff_of_true rfl (not_not.mp (mt (short empty).mpr (Option.some_ne_none _)))
      refuses := fun nonempty => iff_of_false (show (0 : Int) ≠ -1 by decide)
        (mt (noCandidate nonempty).mpr (Option.some_ne_none _))
      places := by
        intro _
        refine ⟨_, front, back, rfl, placed.toLinkedInGap, ?_, fun nonempty =>
          represents.prefers_of_choose fits nonempty chosen split base length⟩
        intro empty
        rw [split] at empty
        obtain ⟨rfl, rfl⟩ := List.append_eq_nil_iff.mp empty
        rfl }

/-! ### Allocations of a run -/

/-- An allocation returns a value and places the region as the strategy does. -/
def Kernel.Allots (platform : Platform) (kernel : Kernel) (strategy : AllocationStrategy)
    (environment : Environment) (size : Nat) (mm : TsoMmMapping) (regions : List Region)
    (ret : Int) : Prop :=
  ∃ fuel outcome, sysTsoMmAlloc platform fuel environment size kernel = .ok outcome ∧
    PlacesBy platform strategy kernel.memory mm size regions outcome ∧ outcome.ret = ret

/-- What the choice of a strategy returns. -/
def Layout.verdict (layout : Layout platform) (strategy : AllocationStrategy) (bytes : Nat) : Int :=
  if layout.choose strategy bytes = none then -1 else 0

theorem Layout.verdict_eq (layout : Layout platform) (strategy other : AllocationStrategy)
    (bytes : Nat) : layout.verdict strategy bytes = layout.verdict other bytes := by
  have same : layout.choose strategy bytes = none ↔ layout.choose other bytes = none :=
    layout.choose_eq_none.trans layout.choose_eq_none.symm
  simp only [verdict, same]

theorem ret_settledOutcome (environment : Environment) (kernel : Kernel) (mm : TsoMmMapping)
    (size : Nat) (found : Option (Room Region)) :
    (settledOutcome platform environment kernel mm size found).ret =
      if found = none then -1 else 0 := by
  cases found <;> rfl

/-- In a state that models a task, an allocation places the region as the strategy in force
does. -/
theorem Kernel.Models.allots {task : TaskState platform} (models : kernel.Models task)
    {environment : Environment} (grants : environment.Grants platform) {size : Nat}
    (fits : platform.headerSize + size < platform.modulus)
    (uses : kernel.Uses platform environment mm) :
    kernel.Allots platform task.strategy environment size mm
      (task.heapFor grants).regions
      ((task.heapFor grants).verdict task.strategy (platform.headerSize + size)) := by
  obtain ⟨used, usedUses, represents, returned⟩ := models.alloc grants fits
  obtain rfl := uses.unique usedUses
  exact ⟨_, _, returned _ (Nat.lt_succ_self _), represents.placesBy environment _ fits,
    ret_settledOutcome _ _ _ _ _⟩

/-- In every state that a run of legal calls reaches, an allocation that does not wrap places the
region as the strategy in force does; after a switch to any of the three it does so under that
one; and it returns the same under all of them. -/
theorem placesBy_of_run {start after : Kernel} {events : List Event} (fresh : start.Fresh)
    (run : Run (LegalStep platform) start events after) {environment : Environment}
    (grants : environment.Grants platform) {size : Nat}
    (fits : platform.headerSize + size < platform.modulus) :
    ∃ mm regions ret, after.Uses platform environment mm ∧
      (∃ strategy, after.Follows strategy ∧
        after.Allots platform strategy environment size mm regions ret) ∧
      ∀ strategy : AllocationStrategy, (sysTsoMmSwitchStrategy strategy.value after).kernel.Allots
        platform strategy environment size mm regions ret := by
  obtain ⟨task, models⟩ := models_of_run fresh run
  obtain ⟨mm, uses, _⟩ := models.alloc grants fits
  refine ⟨mm, (task.heapFor grants).regions, _, uses,
    ⟨task.strategy, models.1, models.allots grants fits uses⟩, fun strategy => ?_⟩
  have switched : (sysTsoMmSwitchStrategy strategy.value after).kernel.Models
      (⟨strategy, task.heap⟩ : TaskState platform) := ⟨rfl, models.2.congr rfl rfl⟩
  rw [(task.heapFor grants).verdict_eq task.strategy strategy]
  exact switched.allots grants fits uses

theorem placesBy_sample : ∃ events after,
    Run (LegalStep Platform.i386) (Kernel.boot fun _ => 0) events after ∧
      after.currentMm = some ⟨0x1030, 0x1000, 32768, 32700⟩ ∧ ∃ mm regions ret,
        ∀ strategy : AllocationStrategy,
          (sysTsoMmSwitchStrategy strategy.value after).kernel.Allots Platform.i386 strategy
            .secondPage 8 mm regions ret := by
  obtain ⟨events, after, run, mapped⟩ := exists_run Platform.i386 9 (Kernel.boot fun _ => 0)
    [.alloc .secondPage 40, .alloc .secondPage 60, .free 0x1008] (fun state => state.2.currentMm)
    (show _ = some (some ⟨0x1030, 0x1000, 32768, 32700⟩) by decide +kernel)
  have grants : Environment.secondPage.Grants Platform.i386 := by decide
  have fits : Platform.i386.headerSize + 8 < Platform.i386.modulus := by decide
  obtain ⟨mm, regions, ret, _, _, allots⟩ :=
    placesBy_of_run (Kernel.fresh_boot _) run grants fits
  exact ⟨events, after, run, mapped, mm, regions, ret, allots⟩

end TsoAlloc
