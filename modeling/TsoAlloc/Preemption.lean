/-
This file lets the system calls be interrupted. Nothing in `tsoalloc.c` takes a lock, so
between two rounds of the search of `tso_mm_get_fit`, between the search and the placement, and
between two rounds of the walk of `sys_tso_mm_free`, other tasks run: they fork, write their
memory and make calls of their own, to the end or to some round. Everything that a call reads
on its way belongs to its task alone, but for `current_strategy`. So as long as nobody switches
the strategy during a search, the system does what it does when every call is one step, at the
moment when the call returns; and a call returns after as many of its own steps as its list is
long, whatever the others do.

What stands before the first round, and the stores at the end of a call, are one step here.
-/

import TsoAlloc.Races

namespace TsoAlloc

open Extents Transition

section

variable (platform : Platform)

/-! ### Calls in steps -/

/-- A call between two of its steps: in the loop of `tso_mm_get_fit`, behind it, or in the loop of
`sys_tso_mm_free`. -/
inductive Pending where
  | searching (environment : Environment) (size : Nat) (scan : Scan)
  | found (environment : Environment) (size fit : Nat) (state : FitConditions)
  | walking (addr : Nat) (walk : Walk)
deriving DecidableEq, Repr

/-- The call that is pending. -/
def Pending.call : Pending → Call
  | .searching environment size _ => .alloc environment size
  | .found environment size _ _ => .alloc environment size
  | .walking addr _ => .free addr

/-- `sys_tso_mm_alloc` behind `tso_mm_get_fit`. -/
def placeFit (environment : Environment) (size : Nat) (kernel : Kernel) (mm : TsoMmMapping)
    (fit : Nat) (state : FitConditions) : Except Trap Outcome :=
  match state with
  | .ok => do
    let fitSize ← readSize platform kernel.memory fit
    placeRegion platform environment kernel mm size fit state
      (platform.add fit (regionSize platform fitSize))
  | .start => placeRegion platform environment kernel mm size fit state mm.start
  | .noFit => .ok { kernel, ret := -1, delivered := none, stores := [] }

/-- `sys_tso_mm_alloc` from where `current->tso_mm` is set as far as the loop of
`tso_mm_get_fit`. Without regions there is no loop, and the call returns. -/
def enterSearch (environment : Environment) (size : Nat) (kernel : Kernel) (mm : TsoMmMapping) :
    Except Trap (Pending ⊕ Outcome) :=
  let kernel := { kernel with currentMm := some mm }
  if mm.free < regionSize platform size then
    .ok (.inr { kernel, ret := -1, delivered := none, stores := [] })
  else if mm.firstRegion = 0 then do
    let outcome ← placeFit platform environment size kernel mm 0 .start
    .ok (.inr outcome)
  else
    .ok (.inl (.searching environment size
      (Scan.init platform (fun _ => kernel.currentStrategy) mm .noFit)))

/-- A call as far as its loop, if it has one. -/
def Call.enter (kernel : Kernel) : Call → Except Trap (Pending ⊕ Outcome)
  | .alloc environment size => do
    let mm ← match kernel.currentMm with
      | none => tsoMmInitialize platform environment
      | some mm => .ok mm
    enterSearch platform environment size kernel mm
  | .free addr =>
    match kernel.currentMm with
    | none => .error .nullDereference
    | some mm =>
      if mm.firstRegion = 0 then .ok (.inr { kernel, ret := -1, delivered := none, stores := [] })
      else
        let region := mm.firstRegion
        if platform.add region platform.headerSize = addr then do
          let firstRegion ← readNext platform kernel.memory region
          let size ← readSize platform kernel.memory region
          let free := platform.add mm.free (regionSize platform size)
          .ok (.inr {
            kernel := { kernel with currentMm := some { mm with firstRegion, free } }
            ret := 0
            delivered := none
            stores := [] })
        else do
          let next ← readNext platform kernel.memory region
          .ok (.inl (.walking addr (Walk.at platform region next)))
  | .switchStrategy strategy => .ok (.inr (sysTsoMmSwitchStrategy strategy kernel))

/-- The next step of a pending call. A round of the search reads `current_strategy` as it is at
that moment. -/
def Pending.step (kernel : Kernel) (pending : Pending) : Except Trap (Pending ⊕ Outcome) :=
  match kernel.currentMm with
  | none => .error .nullDereference
  | some mm =>
    match pending with
    | .searching environment size scan => do
      match ← Scan.round platform (fun _ => kernel.currentStrategy) mm kernel.memory size scan with
      | .inl next => .ok (.inl (.searching environment size next))
      | .inr (fit, state) => .ok (.inl (.found environment size fit state))
    | .found environment size fit state => do
      let outcome ← placeFit platform environment size kernel mm fit state
      .ok (.inr outcome)
    | .walking addr walk => do
      match ← Walk.round platform kernel mm addr walk with
      | .inl next => .ok (.inl (.walking addr next))
      | .inr outcome => .ok (.inr outcome)

end

variable {platform : Platform} {kernel : Kernel} {mm : TsoMmMapping} {memory : ByteMemory}

/-! ### The search -/

theorem Listed.first_eq_pointerTo {first : Nat} {regions : List Region}
    (listed : Listed platform memory first regions) : first = pointerTo regions.head? := by
  cases regions with
  | nil => exact listed_nil.mp listed
  | cons region rest => exact (listed_cons.mp listed).1

theorem Listed.suffix {front rest : List Region} {first : Nat}
    (listed : Listed platform memory first (front ++ rest)) :
    Listed platform memory (pointerTo rest.head?) rest := by
  induction front generalizing first with
  | nil => exact listed.first_eq_pointerTo ▸ listed
  | cons region front inductionHypothesis =>
    exact inductionHypothesis (listed_cons.mp listed).2.2.2

/-- What the search remembers before its first round. -/
def seed (platform : Platform) (strategy : AllocationStrategy) : Choice where
  bestMatch := 0
  bestSize := if strategy = .bestFit then platform.add platform.initialSize 1 else 0
  state := .noFit
  reads := 1

theorem init_eq_seed (mapped : mm.size = platform.initialSize)
    (observed : Nat → AllocationStrategy) :
    Choice.init platform (valuesOf observed) mm .noFit = seed platform (observed 0) := by
  unfold Choice.init seed valuesOf
  rw [ofValue_value, mapped]
  cases observed 0 <;> rfl

namespace Layout

variable (layout : Layout platform)

/-- What a search over the gaps of a layout returns when its reads find these strategies. -/
def search (bytes : Nat) (observed : Nat → AllocationStrategy) : Nat × FitConditions :=
  scanRooms (valuesOf observed) bytes (seed platform (observed 0)) layout.gaps

/-- The gap between the first regions and the rest. -/
def gapBehind (front rest : List Region) : Room Region where
  behind := front.getLast?
  base := roomBase (Region.top platform) layout.start front
  length := roomTop Region.addr layout.stop rest - roomBase (Region.top platform) layout.start front

/-- That gap and those that follow. -/
def gapsFrom (front rest : List Region) : List (Room Region) :=
  rooms Region.addr (Region.top platform) front.getLast?
    (roomBase (Region.top platform) layout.start front) layout.stop rest

theorem gapsFrom_nil (front : List Region) :
    layout.gapsFrom front [] = [layout.gapBehind front []] := rfl

theorem gapsFrom_cons (front : List Region) (region : Region) (rest : List Region) :
    layout.gapsFrom front (region :: rest) =
      layout.gapBehind front (region :: rest) :: layout.gapsFrom (front ++ [region]) rest := by
  unfold gapsFrom
  rw [List.getLast?_concat, roomBase_append_singleton]
  rfl

/-- The search of the code over the regions of a layout. -/
theorem tsoMmGetFit_search (describes : Describes mm memory layout) {fuel : Nat} (size : Nat)
    (observed : Nat → AllocationStrategy) (nonempty : layout.regions ≠ [])
    (enough : layout.regions.length < fuel) :
    tsoMmGetFit platform fuel (valuesOf observed) mm memory size .noFit =
      .ok (layout.search (regionSize platform size) observed) := by
  rw [tsoMmGetFit_eq layout .noFit describes.start describes.size describes.listed enough,
    if_neg nonempty, init_eq_seed describes.size]
  rfl

end Layout

/-- What is remembered before some of the gaps leads to what a search returns: it has made so many
reads, which found strategies of some kind, and whatever the reads find from now on, it ends as
the search with all these reads. -/
def Choice.Leads (layout : Layout platform) (Finds : AllocationStrategy → Prop) (bytes : Nat)
    (choice : Choice) (gaps : List (Room Region)) : Prop :=
  ∃ before : Nat → AllocationStrategy, (∀ read, Finds (before read)) ∧
    ∀ observed : Nat → AllocationStrategy,
      (∀ read, read < choice.reads → observed read = before read) →
        scanRooms (valuesOf observed) bytes choice gaps = layout.search bytes observed

namespace Choice.Leads

variable {layout : Layout platform} {Finds : AllocationStrategy → Prop} {bytes : Nat}
  {choice : Choice} {room : Room Region} {others : List (Room Region)}
  {strategy : AllocationStrategy}

theorem leave (leads : choice.Leads layout Finds bytes []) :
    ∃ observed : Nat → AllocationStrategy, (∀ read, Finds (observed read)) ∧
      choice.leave = layout.search bytes observed := by
  obtain ⟨before, finds, leads⟩ := leads
  exact ⟨before, finds, leads before fun _ _ => rfl⟩

/-- A gap that is too short is passed. -/
theorem skip (leads : choice.Leads layout Finds bytes (room :: others))
    (short : ¬ bytes < room.length) : choice.Leads layout Finds bytes others := by
  obtain ⟨before, finds, leads⟩ := leads
  refine ⟨before, finds, fun observed agrees => ?_⟩
  have ends := leads observed agrees
  rwa [scanRooms, if_neg short] at ends

/-- One more read finds a strategy. -/
theorem read (leads : choice.Leads layout Finds bytes (room :: others)) (found : Finds strategy) :
    ∃ before : Nat → AllocationStrategy, (∀ read, Finds (before read)) ∧
      before choice.reads = strategy ∧ ∀ observed : Nat → AllocationStrategy,
        (∀ read, read < choice.reads + 1 → observed read = before read) →
          scanRooms (valuesOf observed) bytes choice (room :: others) =
            layout.search bytes observed := by
  obtain ⟨before, finds, leads⟩ := leads
  refine ⟨Function.update before choice.reads strategy, ?_, Function.update_self _ _ _, ?_⟩
  · intro read
    rw [Function.update_apply]
    split
    · exact found
    · exact finds read
  · intro observed agrees
    refine leads observed fun read early => ?_
    rw [agrees read (by omega), Function.update_of_ne early.ne]

theorem first (leads : choice.Leads layout Finds bytes (room :: others)) (found : Finds .firstFit)
    (large : bytes < room.length) :
    ∃ observed : Nat → AllocationStrategy, (∀ read, Finds (observed read)) ∧
      settle room = layout.search bytes observed := by
  obtain ⟨before, finds, here, leads⟩ := leads.read found
  have ends := leads before fun _ _ => rfl
  rw [scanRooms, if_pos large, valuesOf, here, ofValue_value, if_pos rfl] at ends
  exact ⟨before, finds, ends⟩

/-- Another strategy compares the gap with the best so far. -/
theorem consider (leads : choice.Leads layout Finds bytes (room :: others))
    (found : Finds strategy) (large : bytes < room.length) (notFirst : strategy ≠ .firstFit) :
    (choice.consider (fun _ => strategy.value) room.length (pointerTo room.behind)).Leads layout
      Finds bytes others := by
  obtain ⟨before, finds, here, leads⟩ := leads.read found
  refine ⟨before, finds, fun observed agrees => ?_⟩
  have ends := leads observed agrees
  have same : observed choice.reads = strategy :=
    (agrees choice.reads (Nat.lt_succ_self _)).trans here
  have value : valuesOf observed choice.reads = strategy.value := congrArg _ same
  rw [scanRooms, if_pos large, value, ofValue_value,
    if_neg fun first => notFirst (Option.some.inj first)] at ends
  rw [← ends]
  unfold Choice.consider
  rw [value]

end Choice.Leads

/-- The search stands between the first regions of a layout and the rest. -/
structure Scan.At (layout : Layout platform) (front rest : List Region) (scan : Scan) : Prop where
  split : layout.regions = front ++ rest
  next : scan.nextRegion = pointerTo rest.head?
  previous : scan.previousRegion = pointerTo (layout.gapBehind front rest).behind
  available : scan.availableSize = (layout.gapBehind front rest).length

/-- The search stands there, and what it remembers leads to what a search returns. -/
structure Scan.Between (layout : Layout platform) (Finds : AllocationStrategy → Prop) (bytes : Nat)
    (front rest : List Region) (scan : Scan) : Prop extends scan.At layout front rest where
  leads : scan.toChoice.Leads layout Finds bytes (layout.gapsFrom front rest)

/-- Whatever a round remembers, at its end the search moves behind the next region, or ends. -/
theorem Scan.At.advance {layout : Layout platform} {front rest : List Region} {scan : Scan}
    (place : scan.At layout front rest) (describes : Describes mm memory layout)
    (choice : Choice) :
    (∃ next region back, rest = region :: back ∧
        Scan.advance platform mm memory { scan with toChoice := choice } = .ok (.inl next) ∧
          next.At layout (front ++ [region]) back ∧ next.toChoice = choice) ∨
      rest = [] ∧ Scan.advance platform mm memory { scan with toChoice := choice } =
        .ok (.inr choice.leave) := by
  have stop := layout.stop_eq describes.start describes.size
  have packed : Packed Region.addr (Region.top platform) layout.start layout.stop
      layout.regions := layout.packed
  rw [place.split] at packed
  obtain ⟨below, above⟩ := packed_append.mp packed
  have listed := describes.listed
  rw [place.split] at listed
  have here : Listed platform memory { scan with toChoice := choice }.nextRegion rest := by
    show Listed platform memory scan.nextRegion rest
    rw [place.next]
    exact listed.suffix
  cases rest with
  | nil => exact Or.inr ⟨rfl, advance_nil here⟩
  | cons region back =>
    left
    have low := below.le_roomBase
    have positive := layout.start_pos
    have fits : mm.start + mm.size ≤ platform.modulus := by
      rw [stop]
      exact layout.fits
    rw [← stop] at above
    have tail := (listed_cons.mp here).2.2.2
    refine ⟨_, region, back, rfl, advance_cons (by omega) fits here above, ⟨?_, ?_, ?_, ?_⟩, rfl⟩
    · rw [place.split, List.append_assoc, List.singleton_append]
    · exact tail.first_eq_pointerTo
    · unfold Layout.gapBehind
      rw [List.getLast?_concat]
      rfl
    · unfold Layout.gapBehind
      rw [roomBase_append_singleton, ← stop]

namespace Scan.Between

variable {layout : Layout platform} {Finds : AllocationStrategy → Prop} {size : Nat}
  {front rest : List Region} {scan : Scan} {strategy : AllocationStrategy}

/-- The end of a round, when what it remembers leads on. -/
theorem advance (between : scan.Between layout Finds (regionSize platform size) front rest)
    (describes : Describes mm memory layout) {others : List (Room Region)}
    (shape : layout.gapsFrom front rest = layout.gapBehind front rest :: others) {choice : Choice}
    (leads : choice.Leads layout Finds (regionSize platform size) others) :
    (∃ next region back, rest = region :: back ∧
        Scan.advance platform mm memory { scan with toChoice := choice } = .ok (.inl next) ∧
          next.Between layout Finds (regionSize platform size) (front ++ [region]) back) ∨
      ∃ observed : Nat → AllocationStrategy, (∀ read, Finds (observed read)) ∧
        Scan.advance platform mm memory { scan with toChoice := choice } =
          .ok (.inr (layout.search (regionSize platform size) observed)) := by
  rcases between.toAt.advance describes choice with
    ⟨next, region, back, rfl, went, further, rfl⟩ | ⟨rfl, ended⟩
  · rw [layout.gapsFrom_cons] at shape
    obtain ⟨_, rfl⟩ := List.cons.inj shape
    exact Or.inl ⟨next, region, back, rfl, went, further, leads⟩
  · rw [layout.gapsFrom_nil] at shape
    obtain ⟨_, rfl⟩ := List.cons.inj shape
    obtain ⟨observed, finds, same⟩ := leads.leave
    exact Or.inr ⟨observed, finds, same ▸ ended⟩

/-- A round of the search moves behind the next region, or ends the search as it ends when it is
one step. -/
theorem round (between : scan.Between layout Finds (regionSize platform size) front rest)
    (describes : Describes mm memory layout) (found : Finds strategy) :
    (∃ next region back, rest = region :: back ∧
        Scan.round platform (fun _ => strategy.value) mm memory size scan = .ok (.inl next) ∧
          next.Between layout Finds (regionSize platform size) (front ++ [region]) back) ∨
      ∃ observed : Nat → AllocationStrategy, (∀ read, Finds (observed read)) ∧
        Scan.round platform (fun _ => strategy.value) mm memory size scan =
          .ok (.inr (layout.search (regionSize platform size) observed)) := by
  obtain ⟨others, shape⟩ : ∃ others,
      layout.gapsFrom front rest = layout.gapBehind front rest :: others := by
    cases rest with
    | nil => exact ⟨_, layout.gapsFrom_nil front⟩
    | cons region back => exact ⟨_, layout.gapsFrom_cons front region back⟩
  have leads := between.leads
  rw [shape] at leads
  unfold Scan.round
  rw [between.available, between.previous, ofValue_value]
  by_cases large : regionSize platform size < (layout.gapBehind front rest).length
  · rw [if_pos large]
    by_cases first : strategy = .firstFit
    · subst first
      rw [if_pos rfl]
      obtain ⟨observed, finds, same⟩ := leads.first found large
      exact Or.inr ⟨observed, finds, by rw [← same]; rfl⟩
    · rw [if_neg fun same => first (Option.some.inj same)]
      exact between.advance describes shape (leads.consider found large first)
  · rw [if_neg large]
    exact between.advance describes shape (leads.skip large)

/-- Before its first round the search stands at the start of the mapping. -/
theorem init (layout : Layout platform) (describes : Describes mm memory layout)
    (nonempty : layout.regions ≠ []) (found : Finds strategy) (bytes : Nat) :
    (Scan.init platform (fun _ => strategy.value) mm .noFit).Between layout Finds bytes []
      layout.regions where
  split := rfl
  next := describes.listed.first_eq_pointerTo
  previous := rfl
  available := by
    rw [layout.availableSize_init _ _ describes.start describes.listed nonempty,
      layout.stop_eq describes.start describes.size]
    rfl
  leads := by
    refine ⟨fun _ => strategy, fun _ => found, fun observed agrees => ?_⟩
    have seeded : (Scan.init platform (fun _ => strategy.value) mm .noFit).toChoice =
        seed platform (observed 0) := by
      rw [agrees 0 Nat.zero_lt_one]
      exact init_eq_seed describes.size fun _ => strategy
    rw [seeded]
    rfl

end Scan.Between

/-! ### The walk -/

/-- The walk stands behind a region of a layout, and none so far has matched the address. -/
structure Walk.Between (layout : Layout platform) (addr : Nat) (front : List Region)
    (behind : Region) (rest : List Region) (walk : Walk) : Prop where
  split : layout.regions = front ++ behind :: rest
  walk : walk = Walk.at platform behind.addr (pointerTo rest.head?)
  passed : ∀ other ∈ front ++ [behind], ¬ Matches platform addr other
  first : rest = [] → front = []

/-- A round of the walk moves behind the next region, or ends the call as it ends when it is one
step. -/
theorem Walk.Between.round {layout : Layout platform} {addr : Nat} {front rest : List Region}
    {behind : Region} {walk : Walk} (between : walk.Between layout addr front behind rest)
    (mapped : kernel.currentMm = some mm) (describes : Describes mm kernel.memory layout) :
    (∃ next region back, rest = region :: back ∧
        Walk.round platform kernel mm addr walk = .ok (.inl next) ∧
          next.Between layout addr (front ++ [behind]) region back) ∨
      ∃ outcome, Walk.round platform kernel mm addr walk = .ok (.inr outcome) ∧
        sysTsoMmFree platform layout.regions.length addr kernel = .ok outcome := by
  obtain ⟨split, rfl, passed, first⟩ := between
  have listed := describes.listed
  rw [split] at listed
  have here := (listed_cons.mp listed.suffix).2.2.2
  rw [here.first_eq_pointerTo] at here
  cases rest with
  | nil =>
    right
    obtain rfl := first rfl
    refine ⟨unchanged kernel 0, rfl, ?_⟩
    rw [free_miss mapped describes (fun other member => passed other (split ▸ member)) le_rfl,
      split]
    rfl
  | cons region back =>
    by_cases found : Matches platform addr region
    · right
      exact ⟨_, round_hit split here found, free_behind mapped describes split passed found le_rfl⟩
    have others (other : Region) (member : other ∈ (front ++ [behind]) ++ [region]) :
        ¬ Matches platform addr other := by
      rcases List.mem_append.mp member with before | last
      · exact passed other before
      · rwa [List.mem_singleton.mp last]
    cases back with
    | nil =>
      right
      refine ⟨unchanged kernel (-1), round_miss here found, ?_⟩
      have whole : layout.regions = (front ++ [behind]) ++ [region] := by
        rw [split, List.append_assoc, List.singleton_append]
      rw [free_miss mapped describes (fun other member => others other (whole ▸ member)) le_rfl,
        if_neg]
      rw [split, List.length_append, List.length_cons, List.length_cons]
      omega
    | cons next back =>
      left
      refine ⟨_, region, next :: back, rfl, round_pass here found, ?_, rfl, others, ?_⟩
      · rw [split, List.append_assoc, List.singleton_append]
      · intro none
        cases none

/-! ### A pending call -/

/-- An allocation that the counter lets pass ends as its search does. -/
theorem allocMapped_eq_placeFit {fuel size fit : Nat} {observed : Nat → BitVec 32}
    {environment : Environment} {state : FitConditions}
    (passes : regionSize platform size ≤ mm.free)
    (searched : tsoMmGetFit platform fuel observed mm kernel.memory size .noFit =
      .ok (fit, state)) :
    allocMapped platform fuel observed environment size kernel mm =
      placeFit platform environment size { kernel with currentMm := some mm } mm fit state := by
  unfold allocMapped
  dsimp only
  rw [if_neg (not_lt.mpr passes), searched]
  cases state <;> rfl

/-- An allocation goes to its loop, or returns what it returns when it is one step. -/
theorem enterSearch_or (environment : Environment) (size : Nat) (kernel : Kernel)
    (mm : TsoMmMapping) :
    (∃ pending, enterSearch platform environment size kernel mm = .ok (.inl pending)) ∨
      ∀ fuel observed, enterSearch platform environment size kernel mm =
        (allocMapped platform fuel observed environment size kernel mm).map Sum.inr := by
  by_cases short : mm.free < regionSize platform size
  · right
    intro fuel observed
    unfold enterSearch allocMapped
    dsimp only
    rw [if_pos short, if_pos short]
    rfl
  by_cases empty : mm.firstRegion = 0
  · right
    intro fuel observed
    have searched : tsoMmGetFit platform fuel observed mm kernel.memory size .noFit =
        .ok (0, .start) := if_pos empty
    rw [allocMapped_eq_placeFit (not_lt.mp short) searched]
    unfold enterSearch
    dsimp only
    rw [if_neg short, if_pos empty]
    rfl
  · left
    unfold enterSearch
    dsimp only
    rw [if_neg short, if_neg empty]
    exact ⟨_, rfl⟩

/-- A call goes to its loop, or returns what it returns when it is one step. -/
theorem Call.enter_or (kernel : Kernel) (call : Call) :
    (∃ pending, call.enter platform kernel = .ok (.inl pending)) ∨
      ∀ fuel, call.enter platform kernel = (invoke platform fuel kernel call).map Sum.inr := by
  cases call with
  | alloc environment size =>
    simp only [enter, invoke, sysTsoMmAlloc, sysTsoMmAllocObserving, bind, Except.bind]
    have mapped (mm : TsoMmMapping) :=
      (@enterSearch_or platform environment size kernel mm).imp_right
        fun same fuel => same fuel fun _ => kernel.currentStrategy
    cases kernel.currentMm with
    | none =>
      cases tsoMmInitialize platform environment with
      | error trap => exact Or.inr fun fuel => rfl
      | ok mm => exact mapped mm
    | some mm => exact mapped mm
  | free addr =>
    unfold enter invoke sysTsoMmFree
    cases kernel.currentMm with
    | none => exact Or.inr fun fuel => rfl
    | some mm =>
      dsimp only
      by_cases empty : mm.firstRegion = 0
      · simp only [empty, if_true]
        exact Or.inr fun fuel => rfl
      by_cases here : platform.add mm.firstRegion platform.headerSize = addr
      · simp only [empty, here, if_true, if_false]
        right
        intro fuel
        simp only [readNext, readSize, empty, if_false, bind, Except.bind]
        rfl
      · simp only [empty, here, if_false, readNext, bind, Except.bind]
        exact Or.inl ⟨_, rfl⟩
  | switchStrategy strategy => exact Or.inr fun fuel => rfl

/-- A request that an allocation has let pass to the loop of its search. -/
structure Heap.Admitted (heap : Heap platform) (environment : Environment) (size : Nat) : Prop where
  grants : environment.Grants platform
  fits : platform.headerSize + size < platform.modulus
  passes : regionSize platform size ≤ heap.freeBytes
  nonempty : heap.regions ≠ []

/-- A pending call has come through its list as it does when it is one step whose reads find
strategies of some kind, and returns after so many more steps at most, and one. -/
def Pending.Follows (heap : Heap platform) (Finds : AllocationStrategy → Prop) (left : Nat) :
    Pending → Prop
  | .searching environment size scan => heap.Admitted environment size ∧ ∃ front rest,
    scan.Between heap.toLayout Finds (regionSize platform size) front rest ∧
      left = rest.length + 1
  | .found environment size fit state => heap.Admitted environment size ∧
    ∃ observed : Nat → AllocationStrategy, (∀ read, Finds (observed read)) ∧
      (fit, state) = heap.search (regionSize platform size) observed
  | .walking addr walk => ∃ front behind rest,
    walk.Between heap.toLayout addr front behind rest ∧ left = rest.length

theorem Represents.exists_alloc {heap : Heap platform}
    (represents : Represents mm kernel.memory heap) (mapped : kernel.currentMm = some mm)
    {environment : Environment} {size : Nat} (admitted : heap.Admitted environment size)
    (observed : Nat → AllocationStrategy) :
    ∃ outcome, sysTsoMmAllocObserving platform (heap.regions.length + 1) (valuesOf observed)
      environment size kernel = .ok outcome := by
  by_cases missed : MissesGaps platform kernel size observed
  · exact ⟨_, represents.alloc_of_missesGaps mapped admitted.nonempty environment missed⟩
  · obtain ⟨_, returned, _⟩ :=
      represents.alloc_of_not_missesGaps (Or.inl mapped) admitted.fits missed
    exact ⟨_, returned⟩

/-- A step of a pending call leads it on, or returns what the call may return when it is one
step. -/
theorem Pending.Follows.step {heap : Heap platform} {Finds : AllocationStrategy → Prop}
    {strategy : AllocationStrategy} {left : Nat} {pending : Pending}
    (follows : pending.Follows heap Finds left) (mapped : kernel.currentMm = some mm)
    (represents : Represents mm kernel.memory heap)
    (current : kernel.currentStrategy = strategy.value) (now : Finds strategy) :
    (∃ next fewer, pending.step platform kernel = .ok (.inl next) ∧ next.call = pending.call ∧
        next.Follows heap Finds fewer ∧ fewer < left) ∨
      ∃ outcome, pending.step platform kernel = .ok (.inr outcome) ∧
        pending.call.MayReturn platform Finds kernel outcome := by
  cases pending with
  | searching environment size scan =>
    left
    obtain ⟨admitted, front, rest, between, rfl⟩ := follows
    rcases between.round represents.toDescribes now with
      ⟨next, region, back, rfl, went, further⟩ | ⟨observed, finds, found⟩
    · refine ⟨.searching environment size next, back.length + 1, ?_, rfl,
        ⟨admitted, _, back, further, rfl⟩, by rw [List.length_cons]; omega⟩
      simp only [Pending.step, mapped, current, went, bind, Except.bind]
    · refine ⟨.found environment size _ _, 0, ?_, rfl, ⟨admitted, observed, finds, rfl⟩,
        Nat.succ_pos _⟩
      simp only [Pending.step, mapped, current, found, bind, Except.bind]
      rfl
  | found environment size fit state =>
    right
    obtain ⟨admitted, observed, finds, same⟩ := follows
    have enough := Nat.lt_succ_self heap.regions.length
    have searched :=
      heap.tsoMmGetFit_search represents.toDescribes size observed admitted.nonempty enough
    have passes : regionSize platform size ≤ mm.free := represents.free ▸ admitted.passes
    have whole : { kernel with currentMm := some mm } = kernel := by rw [← mapped]
    have uses : kernel.Uses platform environment mm := Or.inl mapped
    obtain ⟨outcome, returned⟩ := represents.exists_alloc mapped admitted observed
    have placed := returned
    rw [← same] at searched
    rw [uses.alloc_eq, allocMapped_eq_placeFit passes searched, whole] at placed
    refine ⟨outcome, ?_, _, observed, finds, returned⟩
    simp only [Pending.step, mapped, placed, bind, Except.bind]
  | walking addr walk =>
    obtain ⟨front, behind, rest, between, rfl⟩ := follows
    rcases between.round mapped represents.toDescribes with
      ⟨next, region, back, rfl, went, further⟩ | ⟨outcome, went, returned⟩
    · left
      refine ⟨.walking addr next, back.length, ?_, rfl, ⟨_, region, back, further, rfl⟩,
        by rw [List.length_cons]; omega⟩
      simp only [Pending.step, mapped, went, bind, Except.bind]
    · right
      refine ⟨outcome, ?_, heap.regions.length, returned⟩
      simp only [Pending.step, mapped, went, bind, Except.bind]

/-- A call that goes to its loop belongs to a task with regions, and begins at the first one. -/
theorem Call.enter_follows {heap : Option (Heap platform)} {Finds : AllocationStrategy → Prop}
    {strategy : AllocationStrategy} {call : Call} {pending : Pending}
    (holds : kernel.Holds platform heap) (current : kernel.currentStrategy = strategy.value)
    (now : Finds strategy) (legal : call.Legal platform kernel)
    (entered : call.enter platform kernel = .ok (.inl pending)) :
    pending.call = call ∧ ∃ own left, heap = some own ∧ pending.Follows own Finds left ∧
      left ≤ own.regions.length + 1 := by
  cases call with
  | alloc environment size =>
    obtain ⟨grants, fits⟩ := legal
    obtain ⟨mm, uses, represents⟩ := holds.uses grants
    have searches : enterSearch platform environment size kernel mm = .ok (.inl pending) := by
      rcases uses with mapped | ⟨unmapped, initialized⟩
      · simpa only [enter, mapped, bind, Except.bind] using entered
      · simpa only [enter, unmapped, initialized, bind, Except.bind] using entered
    unfold enterSearch at searches
    dsimp only at searches
    split at searches
    · cases searches
    split at searches
    · obtain ⟨_, _, returned⟩ := BoundedLoop.bind_eq_ok.mp searches
      cases returned
    rename_i enough listed
    obtain rfl := Sum.inl.inj (Except.ok.inj searches)
    have nonempty : (heap.getD grants.heap).regions ≠ [] :=
      fun none => listed (represents.listed.first_eq_zero.mpr none)
    refine ⟨rfl, heap.getD grants.heap, _, ?_, ⟨⟨grants, fits, ?_, nonempty⟩, [], _, ?_, rfl⟩,
      le_rfl⟩
    · cases heap with
      | none => exact absurd rfl nonempty
      | some own => rfl
    · exact represents.free ▸ not_lt.mp enough
    · rw [current]
      exact Scan.Between.init _ represents.toDescribes nonempty now _
  | free addr =>
    cases heap with
    | none => exact absurd holds legal
    | some own =>
      obtain ⟨mm, mapped, represents⟩ := holds
      simp only [enter, mapped] at entered
      split at entered
      · cases entered
      split at entered
      · obtain ⟨_, _, returned⟩ := BoundedLoop.bind_eq_ok.mp entered
        obtain ⟨_, _, returned⟩ := BoundedLoop.bind_eq_ok.mp returned
        cases returned
      rename_i listed other
      obtain ⟨next, read, walks⟩ := BoundedLoop.bind_eq_ok.mp entered
      obtain rfl := Sum.inl.inj (Except.ok.inj walks)
      obtain ⟨region, rest, split⟩ := List.exists_cons_of_ne_nil
        fun none : own.regions = [] => listed (represents.listed.first_eq_zero.mpr none)
      have list := represents.listed
      rw [split] at list
      obtain ⟨first, valid, _, tail⟩ := listed_cons.mp list
      rw [first] at other read
      rw [readNext, if_neg valid] at read
      obtain rfl := Except.ok.inj read
      refine ⟨rfl, own, rest.length, rfl, ⟨[], region, rest, ⟨split, ?_, ?_, fun _ => rfl⟩, rfl⟩,
        ?_⟩
      · rw [first]
        exact congrArg _ tail.first_eq_pointerTo
      · intro candidate member
        rwa [List.mem_singleton.mp member]
      · rw [split, List.length_cons]
        omega
  | switchStrategy other => cases entered

/-- A call that returns without a loop returns what it returns when it is one step. -/
theorem Call.enter_returns {call : Call} {outcome : Outcome}
    (entered : call.enter platform kernel = .ok (.inr outcome)) (fuel : Nat) :
    invoke platform fuel kernel call = .ok outcome := by
  rcases call.enter_or kernel with ⟨pending, loops⟩ | same
  · rw [loops] at entered
    cases entered
  · have returned := (same fuel).symm.trans entered
    cases result : invoke platform fuel kernel call with
    | error trap =>
      rw [result] at returned
      cases returned
    | ok found =>
      rw [result] at returned
      exact congrArg _ (Sum.inr.inj (Except.ok.inj returned))

theorem Pending.Follows.legal {heap : Heap platform} {Finds : AllocationStrategy → Prop}
    {left : Nat} {pending : Pending} (follows : pending.Follows heap Finds left)
    (mapped : kernel.currentMm = some mm) : pending.call.Legal platform kernel := by
  cases pending with
  | searching environment size scan => exact ⟨follows.1.grants, follows.1.fits⟩
  | found environment size fit state => exact ⟨follows.1.grants, follows.1.fits⟩
  | walking addr walk =>
    intro unmapped
    rw [mapped] at unmapped
    cases unmapped

end TsoAlloc
