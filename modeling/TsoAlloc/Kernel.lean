/-
This file translates `kernel/tsoalloc/tsoalloc.c`: the records of
`include/linux/tsoalloc.h`, the search for a gap, and the three system calls.

Pointers and `unsigned long` values are numbers below `2 ^ w`, and `NULL` is zero.
Region headers live in the memory of the task, so a header is read and written
through its address: the word at the address is `next` and the word behind it is
`size`. Reading or writing through `NULL` traps; any other address is taken to be
mapped. What the kernel takes from outside is one record of answers (`Environment`),
and `printk` is left out except where its arguments read through a pointer.
-/

import TsoAlloc.Library.BoundedLoop
import TsoAlloc.Library.ByteMemory
import TsoAlloc.Platform

namespace TsoAlloc

/-! ### Data -/

/-- `ALLOCATION_STRATEGY` -/
inductive AllocationStrategy where
  | firstFit
  | bestFit
  | worstFit
deriving DecidableEq, Repr

namespace AllocationStrategy

/-- The value of an enumerator. -/
def value : AllocationStrategy → BitVec 32
  | firstFit => 0
  | bestFit => 1
  | worstFit => 2

/-- The `case` label that a value of type `ALLOCATION_STRATEGY` meets in a `switch`. The
variable holds any `unsigned int` that was cast into it, and most of them meet none. -/
def ofValue (strategy : BitVec 32) : Option AllocationStrategy :=
  if strategy = 0 then some firstFit
  else if strategy = 1 then some bestFit
  else if strategy = 2 then some worstFit
  else none

end AllocationStrategy

/-- `enum FIT_CONDITIONS` -/
inductive FitConditions where
  | ok
  | start
  | noFit
deriving DecidableEq, Repr

/-- `struct tso_mm_mapping` -/
structure TsoMmMapping where
  firstRegion : Nat
  start : Nat
  size : Nat
  free : Nat
deriving DecidableEq, Repr

/-- What the system calls of one task work on: the variable `current_strategy`, which all
tasks share, the record behind `current->tso_mm`, if any, and the memory of the task. -/
structure Kernel where
  currentStrategy : BitVec 32
  currentMm : Option TsoMmMapping
  memory : ByteMemory

/-- The answers a call gets from the rest of the kernel: whether `kmalloc` returns an object,
what `vm_mmap` returns, and how many bytes `copy_to_user` leaves uncopied. -/
structure Environment where
  kmalloc : Bool
  vmMmap : Nat
  copyToUser : Nat
deriving DecidableEq, Repr

/-- Why a call does not return. -/
inductive Trap where
  | nullDereference
  | timeout
deriving DecidableEq, Repr

/-- What a call leaves behind: the state, its return value, the pointer it delivered to the
caller, and the addresses of the words it stored through region pointers, in order. -/
structure Outcome where
  kernel : Kernel
  ret : Int
  delivered : Option Nat
  stores : List Nat

section

variable (platform : Platform)

/-! ### Region headers -/

/-- `&region->size` -/
def sizeField (region : Nat) : Nat := platform.add region platform.wordBytes

/-- `region->next` -/
def readNext (memory : ByteMemory) (region : Nat) : Except Trap Nat :=
  if region = 0 then .error .nullDereference
  else .ok (memory.load platform.wordBytes region)

/-- `region->size` -/
def readSize (memory : ByteMemory) (region : Nat) : Except Trap Nat :=
  if region = 0 then .error .nullDereference
  else .ok (memory.load platform.wordBytes (sizeField platform region))

/-- `region->next = next` -/
def writeNext (memory : ByteMemory) (region next : Nat) : Except Trap ByteMemory :=
  if region = 0 then .error .nullDereference
  else .ok (memory.store platform.wordBytes region next)

/-- `region->size = size` -/
def writeSize (memory : ByteMemory) (region size : Nat) : Except Trap ByteMemory :=
  if region = 0 then .error .nullDereference
  else .ok (memory.store platform.wordBytes (sizeField platform region) size)

/-- `region_size` -/
def regionSize (size : Nat) : Nat := platform.add platform.headerSize size

/-! ### The search for a gap -/

/-- `tso_mm_initialize`. The result of `kmalloc` is not tested before it is written through,
and the result of `vm_mmap` is not tested at all. -/
def tsoMmInitialize (environment : Environment) : Except Trap TsoMmMapping :=
  if environment.kmalloc then
    .ok { firstRegion := 0, start := environment.vmMmap, size := platform.initialSize,
          free := platform.initialSize }
  else .error .nullDereference

/-- What the loop of `tso_mm_get_fit` remembers of the gaps it has seen: the local variables
`best_match` and `best_size`, `*state`, and how often `current_strategy` was read. -/
structure Choice where
  bestMatch : Nat
  bestSize : Nat
  state : FitConditions
  reads : Nat
deriving DecidableEq, Repr

/-- The local variables of the loop of `tso_mm_get_fit`. -/
structure Scan extends Choice where
  nextRegion : Nat
  previousRegion : Nat
  availableSize : Nat
deriving DecidableEq, Repr

/-- `isBest` after the `switch` of the loop, unless the `switch` returns. -/
def isBest (strategy : Option AllocationStrategy) (availableSize bestSize : Nat) : Bool :=
  match strategy with
  | some .worstFit => bestSize < availableSize
  | some .bestFit => availableSize < bestSize
  | _ => false

/-- A gap that is large enough, unless the `switch` returns it. -/
def Choice.consider (observed : Nat → BitVec 32) (availableSize previousRegion : Nat)
    (choice : Choice) : Choice :=
  let best := isBest (AllocationStrategy.ofValue (observed choice.reads)) availableSize
    choice.bestSize
  { bestMatch := if best then previousRegion else choice.bestMatch
    bestSize := if best then availableSize else choice.bestSize
    state := .ok
    reads := choice.reads + 1 }

/-- The result of `tso_mm_get_fit` behind its loop: no best match means the gap before the
first region. -/
def Choice.leave (choice : Choice) : Nat × FitConditions :=
  (choice.bestMatch,
    if choice.state = .ok ∧ choice.bestMatch = 0 then .start else choice.state)

/-- The end of a round of the loop: step to the next region and measure the gap behind it. -/
def Scan.advance (mm : TsoMmMapping) (memory : ByteMemory) (scan : Scan) :
    Except Trap (Scan ⊕ (Nat × FitConditions)) :=
  let previousRegion := scan.nextRegion
  if previousRegion = 0 then .ok (.inr scan.leave)
  else do
    let nextRegion ← readNext platform memory scan.nextRegion
    let previousSize ← readSize platform memory previousRegion
    let limit := if nextRegion ≠ 0 then nextRegion else platform.add mm.start mm.size
    let availableSize :=
      platform.sub (platform.sub limit previousRegion) (regionSize platform previousSize)
    .ok (.inl { scan with nextRegion, previousRegion, availableSize })

/-- One round of the loop of `tso_mm_get_fit`. `observed` gives the value that each read of
`current_strategy` finds. -/
def Scan.round (observed : Nat → BitVec 32) (mm : TsoMmMapping) (memory : ByteMemory) (size : Nat)
    (scan : Scan) : Except Trap (Scan ⊕ (Nat × FitConditions)) :=
  if regionSize platform size < scan.availableSize then
    if AllocationStrategy.ofValue (observed scan.reads) = some .firstFit then
      .ok (.inr (scan.previousRegion, if scan.previousRegion = 0 then .start else .ok))
    else
      Scan.advance platform mm memory
        { scan with
          toChoice := scan.toChoice.consider observed scan.availableSize scan.previousRegion }
  else Scan.advance platform mm memory scan

/-- What the loop remembers before the first round, after the `switch` that seeds `best_size`. -/
def Choice.init (observed : Nat → BitVec 32) (mm : TsoMmMapping) (state : FitConditions) :
    Choice where
  bestMatch := 0
  bestSize :=
    match AllocationStrategy.ofValue (observed 0) with
    | some .bestFit => platform.add mm.size 1
    | _ => 0
  state := state
  reads := 1

/-- The loop variables before the first round. -/
def Scan.init (observed : Nat → BitVec 32) (mm : TsoMmMapping) (state : FitConditions) : Scan where
  toChoice := Choice.init platform observed mm state
  nextRegion := mm.firstRegion
  previousRegion := 0
  availableSize := platform.sub mm.firstRegion mm.start

/-- `tso_mm_get_fit`: the region to place behind, and `*state`. -/
def tsoMmGetFit (fuel : Nat) (observed : Nat → BitVec 32) (mm : TsoMmMapping)
    (memory : ByteMemory) (size : Nat) (state : FitConditions) :
    Except Trap (Nat × FitConditions) :=
  if mm.firstRegion = 0 then .ok (0, .start)
  else
    BoundedLoop.run .timeout (Scan.round platform observed mm memory size) fuel
      (Scan.init platform observed mm state)

/-! ### The system calls -/

/-- The end of `sys_tso_mm_alloc`: write the header of the new region, link it, debit the
counter and deliver the address of the payload. -/
def placeRegion (environment : Environment) (kernel : Kernel) (mm : TsoMmMapping) (size : Nat)
    (fit : Nat) (state : FitConditions) (position : Nat) : Except Trap Outcome := do
  let newRegion := position
  let memory ← writeSize platform kernel.memory newRegion size
  let next ← if state = .start then .ok mm.firstRegion else readNext platform memory fit
  let memory ← writeNext platform memory newRegion next
  let memory ← if state = .ok then writeNext platform memory fit newRegion else .ok memory
  let firstRegion := if state = .ok then mm.firstRegion else newRegion
  let free := platform.sub mm.free (platform.add size platform.headerSize)
  let res := platform.add newRegion platform.headerSize
  .ok {
    kernel := { kernel with currentMm := some { mm with firstRegion, free }, memory }
    ret := 0
    delivered := if environment.copyToUser = 0 then some res else none
    stores := [sizeField platform newRegion, newRegion] ++ if state = .ok then [fit] else [] }

/-- `sys_tso_mm_alloc` once `current->tso_mm` is set. -/
def allocMapped (fuel : Nat) (observed : Nat → BitVec 32) (environment : Environment)
    (size : Nat) (kernel : Kernel) (mm : TsoMmMapping) : Except Trap Outcome :=
  let kernel := { kernel with currentMm := some mm }
  let refused : Outcome := { kernel, ret := -1, delivered := none, stores := [] }
  if mm.free < regionSize platform size then .ok refused
  else do
    let (fit, state) ← tsoMmGetFit platform fuel observed mm kernel.memory size .noFit
    match state with
    | .ok => do
      let fitSize ← readSize platform kernel.memory fit
      placeRegion platform environment kernel mm size fit state
        (platform.add fit (regionSize platform fitSize))
    | .start => placeRegion platform environment kernel mm size fit state mm.start
    | .noFit => .ok refused

/-- `sys_tso_mm_alloc`, where the reads of `current_strategy` find the values of `observed`.
The caller's variable `*address` is not part of the memory here: what `copy_to_user` writes to
it is `Outcome.delivered`, and the store, which goes where the caller asks, counts as one of the
caller's own. -/
def sysTsoMmAllocObserving (fuel : Nat) (observed : Nat → BitVec 32) (environment : Environment)
    (size : Nat) (kernel : Kernel) : Except Trap Outcome := do
  let mm ← match kernel.currentMm with
    | none => tsoMmInitialize platform environment
    | some mm => .ok mm
  allocMapped platform fuel observed environment size kernel mm

/-- `sys_tso_mm_alloc` while nobody else writes `current_strategy`. -/
def sysTsoMmAlloc (fuel : Nat) (environment : Environment) (size : Nat) (kernel : Kernel) :
    Except Trap Outcome :=
  sysTsoMmAllocObserving platform fuel (fun _ => kernel.currentStrategy) environment size kernel

/-- The local variables of the loop of `sys_tso_mm_free`. -/
structure Walk where
  previousRegion : Nat
  region : Nat
  dataAdd : Nat
deriving DecidableEq, Repr

/-- The variables after `region` was set: `dataAdd` is the address of its payload. -/
def Walk.at (previousRegion region : Nat) : Walk where
  previousRegion := previousRegion
  region := region
  dataAdd := platform.add region platform.headerSize

/-- One round of the loop of `sys_tso_mm_free`. A call that leaves the loop by its test or by
`break` returns 0. -/
def Walk.round (kernel : Kernel) (mm : TsoMmMapping) (addr : Nat) (walk : Walk) :
    Except Trap (Walk ⊕ Outcome) :=
  if walk.region = 0 then
    .ok (.inr { kernel, ret := 0, delivered := none, stores := [] })
  else if walk.dataAdd = addr then do
    let next ← readNext platform kernel.memory walk.region
    let memory ← writeNext platform kernel.memory walk.previousRegion next
    let size ← readSize platform memory walk.region
    let free := platform.add mm.free (regionSize platform size)
    .ok (.inr {
      kernel := { kernel with currentMm := some { mm with free }, memory }
      ret := 0
      delivered := none
      stores := [walk.previousRegion] })
  else do
    let next ← readNext platform kernel.memory walk.region
    if next = 0 then .ok (.inr { kernel, ret := -1, delivered := none, stores := [] })
    else .ok (.inl (Walk.at platform walk.region next))

/-- `sys_tso_mm_free`. The `printk` at its beginning reads through `current->tso_mm`. -/
def sysTsoMmFree (fuel : Nat) (addr : Nat) (kernel : Kernel) : Except Trap Outcome :=
  match kernel.currentMm with
  | none => .error .nullDereference
  | some mm =>
    if mm.firstRegion = 0 then .ok { kernel, ret := -1, delivered := none, stores := [] }
    else
      let region := mm.firstRegion
      if platform.add region platform.headerSize = addr then do
        let firstRegion ← readNext platform kernel.memory region
        let size ← readSize platform kernel.memory region
        let free := platform.add mm.free (regionSize platform size)
        .ok {
          kernel := { kernel with currentMm := some { mm with firstRegion, free } }
          ret := 0
          delivered := none
          stores := [] }
      else do
        let next ← readNext platform kernel.memory region
        BoundedLoop.run .timeout (Walk.round platform kernel mm addr) fuel
          (Walk.at platform region next)

/-- `sys_tso_mm_switch_strategy` -/
def sysTsoMmSwitchStrategy (strategy : BitVec 32) (kernel : Kernel) : Outcome where
  kernel := { kernel with currentStrategy := strategy }
  ret := 0
  delivered := none
  stores := []

/-- A system call of the allocator with its arguments, and with the answers it gets. -/
inductive Call where
  | alloc (environment : Environment) (size : Nat)
  | free (addr : Nat)
  | switchStrategy (strategy : BitVec 32)
deriving DecidableEq, Repr

/-- The system calls by their table entries. -/
def invoke (fuel : Nat) (kernel : Kernel) : Call → Except Trap Outcome
  | .alloc environment size => sysTsoMmAlloc platform fuel environment size kernel
  | .free addr => sysTsoMmFree platform fuel addr kernel
  | .switchStrategy strategy => .ok (sysTsoMmSwitchStrategy strategy kernel)

end

end TsoAlloc
