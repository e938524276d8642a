/-
This file states what a successful allocation must have done, in terms of the record and
the headers in memory alone: the list before the call is cut in two, the new region lies
at the low end of the gap between the halves, and the counter drops by its bytes. On a
heap an allocation that settles on a gap that admits it does just that. The file also
has the one way a list in memory can be lost: a first region that links to itself.
-/

import TsoAlloc.TaskRun

namespace TsoAlloc

open Extents Transition

section

variable (platform : Platform)

/-- Where the gap behind the regions of `front` begins. -/
def gapBase (mm : TsoMmMapping) (front : List Region) : Nat :=
  roomBase (Region.top platform) mm.start front

/-- Where the gap before the regions of `back` ends. -/
def gapTop (mm : TsoMmMapping) (back : List Region) : Nat :=
  roomTop Region.addr (mm.start + mm.size) back

/-- The length of the gap between two halves of the list. -/
def gapLength (mm : TsoMmMapping) (front back : List Region) : Nat :=
  gapTop mm back - gapBase platform mm front

/-- The gap between two halves of the list. -/
def gapAt (mm : TsoMmMapping) (front back : List Region) : Room Region where
  behind := front.getLast?
  base := gapBase platform mm front
  length := gapLength platform mm front back

/-- The gaps that the regions of a list leave in the mapping. -/
def gapsOf (mm : TsoMmMapping) (regions : List Region) : List (Room Region) :=
  rooms Region.addr (Region.top platform) none mm.start (mm.start + mm.size) regions

/-- A region of some bytes was linked between two halves of the list, at the low end of the gap
between them, and overlaps no region of either. -/
structure LinkedInGap (size : Nat) (mm placed : TsoMmMapping) (memory changed : ByteMemory)
    (front back : List Region) : Prop where
  before : Listed platform memory mm.firstRegion (front ++ back)
  after : Listed platform changed placed.firstRegion
    (front ++ ⟨gapBase platform mm front, size⟩ :: back)
  apart : ∀ region ∈ front ++ back, region.top platform ≤ gapBase platform mm front ∨
    gapBase platform mm front + platform.headerSize + size ≤ region.addr

/-- A region was linked in a gap that has room for it, inside the mapping, and its bytes were
debited. -/
structure Placed (size : Nat) (mm placed : TsoMmMapping) (memory changed : ByteMemory)
    (front back : List Region) : Prop
    extends LinkedInGap platform size mm placed memory changed front back where
  fits : size + platform.headerSize ≤ gapLength platform mm front back
  low : mm.start ≤ gapBase platform mm front
  high : gapBase platform mm front + platform.headerSize + size ≤ mm.start + mm.size
  range : placed.start = mm.start ∧ placed.size = mm.size
  counter : placed.free + (size + platform.headerSize) = mm.free

/-- The gap between two halves of the list passes the size test of the code: it is longer than
`region_size`, or the list is empty and the counter is not below `region_size`. -/
def PassesTest (size : Nat) (mm : TsoMmMapping) (front back : List Region) : Prop :=
  regionSize platform size < gapLength platform mm front back ∨
    front ++ back = [] ∧ regionSize platform size ≤ mm.free

end

variable {platform : Platform} {kernel : Kernel} {mm : TsoMmMapping}

/-! ### Halves of the list and gaps -/

theorem Describes.gapLength_eq {memory : ByteMemory} {layout : Layout platform}
    (describes : Describes mm memory layout) (front back : List Region) :
    gapLength platform mm front back = roomTop Region.addr layout.stop back -
      roomBase (Region.top platform) layout.start front := by
  rw [gapLength, gapTop, gapBase, describes.start, describes.size]
  rfl

/-- The halves of the list cut out the gaps of the layout. -/
theorem Describes.gap {memory : ByteMemory} {layout : Layout platform}
    (describes : Describes mm memory layout) {front back : List Region}
    (listed : Listed platform memory mm.firstRegion (front ++ back)) :
    layout.regions = front ++ back ∧
      (⟨front.getLast?, gapBase platform mm front, gapLength platform mm front back⟩ :
        Room Region) ∈ layout.gaps := by
  have split := describes.listed.unique listed
  refine ⟨split, layout.mem_gaps.mpr ⟨front, back, split, ?_⟩⟩
  rw [describes.gapLength_eq, gapBase, describes.start]

/-- A gap of the layout is cut out by two halves of the list. -/
theorem Describes.halves {memory : ByteMemory} {layout : Layout platform}
    (describes : Describes mm memory layout) {room : Room Region} (gap : room ∈ layout.gaps) :
    ∃ front back, layout.regions = front ++ back ∧ front.getLast? = room.behind ∧
      gapBase platform mm front = room.base ∧ gapLength platform mm front back = room.length := by
  obtain ⟨front, back, split, rfl⟩ := layout.mem_gaps.mp gap
  refine ⟨front, back, split, rfl, ?_, describes.gapLength_eq front back⟩
  rw [gapBase, describes.start]

theorem Describes.exists_gapLength {memory : ByteMemory} {layout : Layout platform}
    (describes : Describes mm memory layout) (Holds : Nat → Prop) :
    (∃ front back, layout.regions = front ++ back ∧ Holds (gapLength platform mm front back)) ↔
      ∃ room ∈ layout.gaps, Holds room.length := by
  constructor
  · rintro ⟨front, back, split, holds⟩
    exact ⟨_, (describes.gap (split ▸ describes.listed)).2, holds⟩
  · rintro ⟨room, gap, holds⟩
    obtain ⟨front, back, split, _, _, length⟩ := describes.halves gap
    exact ⟨front, back, split, length ▸ holds⟩

theorem Represents.free_of_empty {memory : ByteMemory} {heap : Heap platform}
    (represents : Represents mm memory heap) (empty : heap.regions = []) :
    mm.free = platform.initialSize := by
  have used : heap.used = 0 := by
    unfold Layout.used
    rw [empty]
    rfl
  rw [represents.free, Heap.freeBytes, used, Nat.sub_zero]

theorem Represents.regions_place {heap : Heap platform}
    (represents : Represents mm kernel.memory heap) {size : Nat} {room : Room Region}
    (admits : heap.Admits (platform.headerSize + size) room) {front back : List Region}
    (split : heap.regions = front ++ back) (base : gapBase platform mm front = room.base) :
    (heap.place size room admits).regions = front ++ ⟨room.base, size⟩ :: back := by
  refine heap.insertRegion_eq split ?_
  rw [← base, gapBase, represents.start]

/-- An allocation that settles on a gap that admits the region places it there. -/
theorem Represents.placed {heap : Heap platform} (represents : Represents mm kernel.memory heap)
    {size : Nat} {room : Room Region}
    (admits : heap.Admits (platform.headerSize + size) room) :
    ∃ front back, gapBase platform mm front = room.base ∧
      gapLength platform mm front back = room.length ∧
        Placed platform size mm (placedMapping platform mm size room) kernel.memory
          (placedMemory platform kernel.memory mm.firstRegion size room) front back := by
  obtain ⟨front, back, split, _, base, length⟩ := represents.toDescribes.halves admits.1
  have inserted := represents.regions_place admits split base
  have represented := represents.place admits
  have enough := admits.le
  have inside := heap.gap_within admits.1
  refine ⟨front, back, base, length, ?_⟩
  exact {
    before := split ▸ represents.listed
    after := by
      rw [base, ← inserted]
      exact represented.listed
    fits := by omega
    low := by
      rw [base, represents.start]
      exact inside.1
    high := by
      unfold Layout.stop at inside
      rw [base, represents.start, represents.size]
      omega
    apart := by
      have ordered := (heap.place size room admits).packed.pairwise
      rw [inserted, List.pairwise_append, List.pairwise_cons] at ordered
      obtain ⟨_, ⟨behind, _⟩, before⟩ := ordered
      intro region member
      rw [base]
      rcases List.mem_append.mp member with member | member
      · exact Or.inl (before region member _ List.mem_cons_self)
      · right
        have above : room.base + (platform.headerSize + size) ≤ region.addr :=
          behind region member
        omega
    range := ⟨rfl, rfl⟩
    counter := by
      have left := represents.le_free_of_admits admits
      have taken : (heap.place size room admits).used =
          heap.used + (platform.headerSize + size) := heap.used_place admits
      have free := represents.free
      rw [represented.free, Heap.freeBytes, taken]
      unfold Heap.freeBytes at free
      omega }

theorem Represents.passesTest {heap : Heap platform}
    (represents : Represents mm kernel.memory heap) {size : Nat} {room : Room Region}
    (admits : heap.Admits (platform.headerSize + size) room)
    (exactSize : regionSize platform size = platform.headerSize + size) {front back : List Region}
    (listed : Listed platform kernel.memory mm.firstRegion (front ++ back))
    (length : gapLength platform mm front back = room.length) :
    PassesTest platform size mm front back := by
  unfold PassesTest
  rw [exactSize, length, ← represents.listed.unique listed]
  rcases admits.2 with longer | ⟨empty, _⟩
  · exact Or.inl longer
  · exact Or.inr ⟨empty, represents.le_free_of_admits admits⟩

/-! ### An allocation that does not wrap -/

/-- The heap that an allocation of a task works on, which is empty when the call sets it up. -/
def TaskState.heapFor (task : TaskState platform) {environment : Environment}
    (grants : environment.Grants platform) : Heap platform :=
  task.heap.getD grants.heap

@[simp]
theorem TaskState.regions_heapFor (task : TaskState platform) {environment : Environment}
    (grants : environment.Grants platform) : (task.heapFor grants).regions = task.regions :=
  TaskState.regions_getD task.strategy task.heap grants

theorem Kernel.Models.uses {task : TaskState platform} (models : kernel.Models task)
    {environment : Environment} (grants : environment.Grants platform) :
    ∃ mm, kernel.Uses platform environment mm ∧
      Represents mm kernel.memory (task.heapFor grants) := models.2.uses grants

/-- In a state that models a task, an allocation refuses the request or places the region in the
gap that the strategy of the task chooses. -/
theorem Kernel.Models.alloc {task : TaskState platform} (models : kernel.Models task)
    {environment : Environment} (grants : environment.Grants platform) {size : Nat}
    (fits : platform.headerSize + size < platform.modulus) :
    ∃ mm, kernel.Uses platform environment mm ∧
      Represents mm kernel.memory (task.heapFor grants) ∧
        ∀ fuel, (task.heapFor grants).regions.length < fuel →
          sysTsoMmAlloc platform fuel environment size kernel =
            .ok (settledOutcome platform environment kernel mm size
              ((task.heapFor grants).choose task.strategy (platform.headerSize + size))) := by
  obtain ⟨mm, uses, represents⟩ := models.uses grants
  have constant : ∀ _ : Nat, AllocationStrategy.ofValue kernel.currentStrategy =
      some task.strategy := fun _ => by rw [models.1, ofValue_value]
  refine ⟨mm, uses, represents, fun fuel enough => ?_⟩
  unfold sysTsoMmAlloc
  rw [uses.alloc_eq]
  exact allocMapped_represents represents environment constant enough fits

/-- An allocation returns 0. -/
def Kernel.Serves (platform : Platform) (kernel : Kernel) (environment : Environment)
    (size : Nat) : Prop :=
  ∃ fuel outcome, sysTsoMmAlloc platform fuel environment size kernel = .ok outcome ∧
    outcome.ret = 0

/-- In a state that models a task, an allocation returns 0 exactly when some gap admits the
region. -/
theorem Kernel.Models.serves_iff {task : TaskState platform} (models : kernel.Models task)
    {environment : Environment} (grants : environment.Grants platform) {size : Nat}
    (fits : platform.headerSize + size < platform.modulus) :
    kernel.Serves platform environment size ↔
      ∃ room, (task.heapFor grants).Admits (platform.headerSize + size) room := by
  obtain ⟨mm, _, _, returned⟩ := models.alloc grants fits
  have enough := returned _ (Nat.lt_succ_self _)
  constructor
  · rintro ⟨fuel, outcome, called, zero⟩
    obtain rfl := (sysTsoMmAllocObserving_stable _ environment size kernel).unique called enough
    cases chosen : (task.heapFor grants).choose task.strategy (platform.headerSize + size) with
    | none =>
      rw [chosen] at zero
      cases zero
    | some room => exact ⟨room, (task.heapFor grants).admits_of_choose chosen⟩
  · rintro ⟨room, admits⟩
    cases chosen : (task.heapFor grants).choose task.strategy (platform.headerSize + size) with
    | none => exact absurd admits ((task.heapFor grants).choose_eq_none.mp chosen room)
    | some found =>
      rw [chosen] at enough
      exact ⟨_, _, enough, rfl⟩

/-! ### A region that links to itself -/

theorem not_listed_of_nextOf_self {memory : ByteMemory} {first : Nat} {regions : List Region}
    (valid : first ≠ 0) (itself : nextOf platform memory first = first) :
    ¬ Listed platform memory first regions := by
  intro listed
  cases regions with
  | nil => exact valid (listed_nil.mp listed)
  | cons region rest =>
    obtain ⟨here, _, _, tail⟩ := listed_cons.mp listed
    rw [← here, itself] at tail
    exact List.cons_ne_self region rest (listed.unique tail)

/-! ### A mapping with one block, and one with three -/

/-- A task allocates its first block. -/
theorem exists_run_firstBlock : ∃ after,
    Run (LegalStep Platform.i386) (Kernel.boot fun _ => 0)
        [⟨.alloc .secondPage 8, 0, some 0x1008⟩] after ∧
      after.currentMm = some ⟨0x1000, 0x1000, 32768, 32752⟩ ∧
        Listed Platform.i386 after.memory 0x1000 [⟨0x1000, 8⟩] := by
  obtain ⟨events, after, run, seen⟩ := exists_run Platform.i386 9 (Kernel.boot fun _ => 0)
    [.alloc .secondPage 8]
    (fun state => (state.1, state.2.currentMm,
      decide (Listed Platform.i386 state.2.memory 0x1000 [⟨0x1000, 8⟩])))
    (show _ = some ([⟨.alloc .secondPage 8, 0, some 0x1008⟩],
      some ⟨0x1000, 0x1000, 32768, 32752⟩, true) by decide +kernel)
  simp only [Prod.mk.injEq, decide_eq_true_eq] at seen
  obtain ⟨rfl, mapped, listed⟩ := seen
  exact ⟨after, run, mapped, listed⟩

/-- Four blocks are allocated and the second one is freed. -/
def threeBlocks : List Event :=
  [⟨.alloc .secondPage 8, 0, some 0x1008⟩, ⟨.alloc .secondPage 16, 0, some 0x1018⟩,
    ⟨.alloc .secondPage 24, 0, some 0x1030⟩, ⟨.alloc .secondPage 8, 0, some 0x1050⟩,
    ⟨.free 0x1018, 0, none⟩]

/-- Three blocks are left, with a gap behind the first one and one behind the last one. -/
theorem exists_run_threeBlocks : ∃ after,
    Run (LegalStep Platform.i386) (Kernel.boot fun _ => 0) threeBlocks after ∧
      after.currentMm = some ⟨0x1000, 0x1000, 32768, 32704⟩ ∧
        Listed Platform.i386 after.memory 0x1000 [⟨0x1000, 8⟩, ⟨0x1028, 24⟩, ⟨0x1048, 8⟩] := by
  obtain ⟨events, after, run, seen⟩ := exists_run Platform.i386 9 (Kernel.boot fun _ => 0)
    (threeBlocks.map Event.call)
    (fun state => (state.1, state.2.currentMm, decide (Listed Platform.i386 state.2.memory 0x1000
      [⟨0x1000, 8⟩, ⟨0x1028, 24⟩, ⟨0x1048, 8⟩])))
    (show _ = some (threeBlocks, some ⟨0x1000, 0x1000, 32768, 32704⟩, true) by decide +kernel)
  simp only [Prod.mk.injEq, decide_eq_true_eq] at seen
  obtain ⟨rfl, mapped, listed⟩ := seen
  exact ⟨after, run, mapped, listed⟩

end TsoAlloc
