/-
This file asks where the kernel writes when a task has written over the region headers.
The headers lie in the task's own pages, and no pointer that is read from them is ever
checked: the calls follow `next` and `size` wherever they lead, and store through what they
find. So the stores stay inside the mapping as far as the headers do: those of an allocation
when every region with a large enough gap behind it lies inside the mapping and ends at or
before the next one, and that of a free when the region before the one that is freed has its
`next` inside the mapping, whoever wrote them and whatever the headers were like before.
-/

import TsoAlloc.AnyHeaders
import TsoAlloc.Ledger

namespace TsoAlloc

open Transition

/-- What a task does: a call, or a write to one byte of its memory. -/
inductive Action where
  | call (event : Event)
  | write (byte : Nat) (value : UInt8)

section

variable (platform : Platform)

/-! ### Sound headers -/

/-- A region lies inside the mapping and ends at or before the next one, which begins inside it or
at its end. -/
structure Sound (mm : TsoMmMapping) (memory : ByteMemory) (region : Nat) : Prop where
  start : mm.start ≤ region
  inside : region + platform.headerSize + sizeOf platform memory region ≤ mm.start + mm.size
  ordered : nextOf platform memory region ≠ 0 →
    region + platform.headerSize + sizeOf platform memory region ≤ nextOf platform memory region
  next : nextOf platform memory region ≤ mm.start + mm.size

/-- The regions that a call stores through are sound: for an allocation, those that the list has
with a large enough gap behind them; for a free, those in front of one that the address belongs
to, of which only `next` has to lie inside the mapping. -/
def Call.FindsSound (mm : TsoMmMapping) (memory : ByteMemory) : Call → Prop
  | .alloc _ size => ∀ region, Roomy platform mm memory size region →
      Sound platform mm memory region
  | .free addr => ∀ region, Reaches platform memory mm.firstRegion region →
      nextOf platform memory region ≠ 0 →
        platform.add (nextOf platform memory region) platform.headerSize = addr →
          mm.start ≤ region ∧ region + platform.wordBytes ≤ mm.start + mm.size
  | .switchStrategy _ => True

/-- Whatever a call stores through region pointers, it stores inside the mapping of the task, and
these stores change no other byte. -/
def Kernel.WritesInside (kernel : Kernel) (call : Call) : Prop :=
  ∀ fuel outcome, invoke platform fuel kernel call = .ok outcome →
    (∀ word ∈ outcome.stores, ∃ mm, outcome.kernel.currentMm = some mm ∧
        mm.start ≤ word ∧ word + platform.wordBytes ≤ mm.start + mm.size) ∧
      ∀ byte, outcome.kernel.memory byte ≠ kernel.memory byte →
        ∃ mm, outcome.kernel.currentMm = some mm ∧ mm.start ≤ byte ∧ byte < mm.start + mm.size

/-- A legal call, or a write of the task to any byte of its mapping. -/
def TamperStep (before : Kernel) (action : Action) (after : Kernel) : Prop :=
  match action with
  | .call event => LegalStep platform before event after
  | .write byte value => ∃ mm, before.currentMm = some mm ∧ mm.start ≤ byte ∧
      byte < mm.start + mm.size ∧
        after = { before with memory := Function.update before.memory byte value }

/-- A mapping that `vm_mmap` may return. -/
structure TsoMmMapping.Granted (mm : TsoMmMapping) : Prop where
  start_pos : 0 < mm.start
  size : mm.size = platform.initialSize
  fits : mm.start + mm.size ≤ platform.modulus

/-- The mapping of a task, if it has one, is one that `vm_mmap` may return. -/
def Kernel.HasGranted (kernel : Kernel) : Prop :=
  ∀ mm, kernel.currentMm = some mm → mm.Granted platform

/-- A call leaves the range of its mapping, changes memory only in the words that it stores, and
stores inside the mapping under a condition. -/
structure Outcome.Keeps (outcome : Outcome) (mm : TsoMmMapping) (memory : ByteMemory)
    (condition : Prop) : Prop where
  record : ∃ after, outcome.kernel.currentMm = some after ∧ after.start = mm.start ∧
    after.size = mm.size
  frame : ∀ byte, (∀ word ∈ outcome.stores, ¬ ByteMemory.InWord platform.wordBytes word byte) →
    outcome.kernel.memory byte = memory byte
  inside : mm.Granted platform → condition → ∀ word ∈ outcome.stores,
    mm.start ≤ word ∧ word + platform.wordBytes ≤ mm.start + mm.size

/-- The loop of `sys_tso_mm_free` works on regions of the list, whatever the list is. -/
structure Walk.Visits (mm : TsoMmMapping) (memory : ByteMemory) (walk : Walk) : Prop where
  previous : Reaches platform memory mm.firstRegion walk.previousRegion
  region : walk.region = nextOf platform memory walk.previousRegion
  data : walk.dataAdd = platform.add walk.region platform.headerSize

end

variable {platform : Platform} {kernel : Kernel} {mm : TsoMmMapping} {memory : ByteMemory}
  {size fuel addr : Nat} {condition : Prop}

/-! ### The system calls over any headers -/

theorem Outcome.keeps_of_stores_nil {outcome : Outcome}
    (record : ∃ after, outcome.kernel.currentMm = some after ∧ after.start = mm.start ∧
      after.size = mm.size)
    (same : outcome.kernel.memory = memory) (nothing : outcome.stores = []) :
    outcome.Keeps platform mm memory condition where
  record := record
  frame := fun byte _ => congrFun same byte
  inside := by
    intro _ _ word member
    rw [nothing] at member
    exact absurd member List.not_mem_nil

/-- The end of `sys_tso_mm_alloc`. -/
theorem placeRegion_keeps {environment : Environment} {fit position : Nat}
    {state : FitConditions} {outcome : Outcome}
    (inside : mm.Granted platform → condition →
      ∀ word ∈ [sizeField platform position, position] ++ if state = .ok then [fit] else [],
        mm.start ≤ word ∧ word + platform.wordBytes ≤ mm.start + mm.size)
    (returned : placeRegion platform environment kernel mm size fit state position =
      .ok outcome) :
    outcome.Keeps platform mm kernel.memory condition := by
  by_cases null : position = 0
  · simp only [placeRegion, writeSize, null, if_true, bind, Except.bind] at returned
    cases returned
  have header {byte next : Nat}
      (outside : ∀ word ∈ [sizeField platform position, position],
        ¬ ByteMemory.InWord platform.wordBytes word byte) :
      ((kernel.memory.store platform.wordBytes (sizeField platform position) size).store
        platform.wordBytes position next) byte = kernel.memory byte := by
    rw [ByteMemory.store_of_notInWord (outside position (by simp)),
      ByteMemory.store_of_notInWord (outside (sizeField platform position) (by simp))]
  cases state with
  | start =>
    simp only [placeRegion, writeSize, writeNext, null, if_true, if_false, bind, Except.bind,
      reduceCtorEq] at returned
    obtain rfl := Except.ok.inj returned
    exact ⟨⟨_, rfl, rfl, rfl⟩, fun _ outside => header outside, inside⟩
  | ok =>
    by_cases nowhere : fit = 0
    · simp only [placeRegion, writeSize, readNext, null, nowhere, if_true, if_false, bind,
        Except.bind, reduceCtorEq] at returned
    simp only [placeRegion, writeSize, writeNext, readNext, null, nowhere, if_true, if_false,
      bind, Except.bind, reduceCtorEq] at returned
    obtain rfl := Except.ok.inj returned
    refine ⟨⟨_, rfl, rfl, rfl⟩, fun byte outside => ?_, inside⟩
    dsimp only at outside ⊢
    rw [ByteMemory.store_of_notInWord (outside fit (by simp))]
    exact header fun word member => outside word (List.mem_append_left _ member)
  | noFit =>
    by_cases nowhere : fit = 0
    · simp only [placeRegion, writeSize, readNext, null, nowhere, if_true, if_false, bind,
        Except.bind, reduceCtorEq] at returned
    simp only [placeRegion, writeSize, writeNext, readNext, null, nowhere, if_false, bind,
      Except.bind, reduceCtorEq] at returned
    obtain rfl := Except.ok.inj returned
    exact ⟨⟨_, rfl, rfl, rfl⟩, fun _ outside => header outside, inside⟩

/-- A region of the list that is sound and has a large enough gap behind it: the gap is measured
exactly, and the new header and the link to it fit into the mapping. -/
theorem Roomy.inside (granted : mm.Granted platform)
    (fits : platform.headerSize + size < platform.modulus) {region : Nat}
    (roomy : Roomy platform mm memory size region) (sound : Sound platform mm memory region) :
    ∃ position, platform.add region (regionSize platform (sizeOf platform memory region)) =
        position ∧ mm.start ≤ region ∧ region + platform.headerSize ≤ position ∧
          position + platform.headerSize ≤ mm.start + mm.size := by
  have enough := roomy.2
  obtain ⟨low, inside, ordered, nextInside⟩ := sound
  have positive := granted.start_pos
  have stop := granted.fits
  have exactSize : regionSize platform (sizeOf platform memory region) =
      platform.headerSize + sizeOf platform memory region := Platform.add_of_lt (by omega)
  have request : regionSize platform size = platform.headerSize + size := Platform.add_of_lt fits
  -- The gap ends at the next region, which lies inside the mapping, or with the mapping.
  have measured : ∃ limit, limit ≤ mm.start + mm.size ∧
      region + platform.headerSize + sizeOf platform memory region ≤ limit ∧
        gapBehind platform mm memory region =
          limit - (region + platform.headerSize + sizeOf platform memory region) := by
    unfold gapBehind
    rw [exactSize]
    by_cases last : nextOf platform memory region = 0
    · refine ⟨_, le_rfl, inside, ?_⟩
      rw [if_neg (not_not.mpr last), Platform.sub_add_of_le (by omega) (by omega) stop,
        Platform.sub_of_le (by omega) (by omega)]
      omega
    · have behind := ordered last
      have header := platform.headerSize_pos
      have nextWord := @nextOf_lt platform memory region
      have distance : platform.sub (nextOf platform memory region) region =
          nextOf platform memory region - region := Platform.sub_of_le (by omega) (by omega)
      refine ⟨nextOf platform memory region, by omega, behind, ?_⟩
      rw [if_pos last, distance, Platform.sub_of_le (by omega) (by omega)]
      omega
  obtain ⟨limit, high, behind, gap⟩ := measured
  rw [gap, request] at enough
  refine ⟨region + platform.headerSize + sizeOf platform memory region, ?_, low, by omega,
    by omega⟩
  rw [exactSize, Platform.add_of_lt (by omega)]
  omega

/-- `sys_tso_mm_alloc` once there is a mapping. -/
theorem allocMapped_keeps {observed : Nat → BitVec 32} {environment : Environment}
    {outcome : Outcome} (fits : platform.headerSize + size < platform.modulus)
    (returned : allocMapped platform fuel observed environment size kernel mm = .ok outcome) :
    outcome.Keeps platform mm kernel.memory
      ((Call.alloc environment size).FindsSound platform mm kernel.memory) := by
  unfold allocMapped at returned
  by_cases short : mm.free < regionSize platform size
  · rw [if_pos short] at returned
    obtain rfl := Except.ok.inj returned
    exact Outcome.keeps_of_stores_nil ⟨mm, rfl, rfl, rfl⟩ rfl rfl
  rw [if_neg short] at returned
  cases searched : tsoMmGetFit platform fuel observed mm kernel.memory size .noFit with
  | error trap =>
    simp only [searched, bind, Except.bind] at returned
    cases returned
  | ok result =>
    obtain ⟨fit, state⟩ := result
    have fitting := tsoMmGetFit_fitting searched
    simp only [searched, bind, Except.bind] at returned
    cases state with
    | noFit =>
      obtain rfl := Except.ok.inj returned
      exact Outcome.keeps_of_stores_nil ⟨mm, rfl, rfl, rfl⟩ rfl rfl
    | start =>
      refine placeRegion_keeps (fun granted _ word member => ?_) returned
      have room := platform.two_headers_lt_initialSize
      have size := granted.size
      have stop := granted.fits
      rw [sizeField_eq (by omega)] at member
      unfold Platform.headerSize at room
      simp only [reduceCtorEq, if_false, List.append_nil, List.mem_cons, List.not_mem_nil,
        or_false] at member
      omega
    | ok =>
      have valid := (fitting rfl).1.ne_zero
      simp only [readSize, valid, if_false] at returned
      refine placeRegion_keeps (fun granted sound word member => ?_) returned
      obtain ⟨position, placed, low, behind, high⟩ :=
        (fitting rfl).inside granted fits (sound fit (fitting rfl))
      have stop := granted.fits
      unfold sizeOf at placed
      rw [placed, sizeField_eq (by omega)] at member
      unfold Platform.headerSize at behind high
      simp only [if_true, List.cons_append, List.nil_append, List.mem_cons, List.not_mem_nil,
        or_false] at member
      omega

/-- One round of the loop of `sys_tso_mm_free`. -/
theorem Walk.Visits.round (mapped : kernel.currentMm = some mm) {walk : Walk}
    (visits : walk.Visits platform mm kernel.memory) {step : Walk ⊕ Outcome}
    (went : walk.round platform kernel mm addr = .ok step) :
    Sum.elim (Walk.Visits platform mm kernel.memory)
      (fun outcome => outcome.Keeps platform mm kernel.memory
        ((Call.free addr).FindsSound platform mm kernel.memory)) step := by
  unfold Walk.round at went
  by_cases ended : walk.region = 0
  · rw [if_pos ended] at went
    obtain rfl := Except.ok.inj went
    exact Outcome.keeps_of_stores_nil ⟨mm, mapped, rfl, rfl⟩ rfl rfl
  rw [if_neg ended] at went
  have valid : nextOf platform kernel.memory walk.previousRegion ≠ 0 := visits.region ▸ ended
  by_cases found : walk.dataAdd = addr
  · have behind := visits.previous.ne_zero
    simp only [found, if_true, readNext, readSize, writeNext, ended, behind, if_false, bind,
      Except.bind] at went
    obtain rfl := Except.ok.inj went
    refine ⟨⟨_, rfl, rfl, rfl⟩, fun byte outside => ?_, fun _ sound word member => ?_⟩
    · exact ByteMemory.store_of_notInWord (outside _ (List.mem_singleton_self _))
    · rw [List.mem_singleton.mp member]
      refine sound _ visits.previous valid ?_
      rw [← visits.region, ← visits.data, found]
  · simp only [found, if_false, readNext, ended, bind, Except.bind] at went
    split at went
    · obtain rfl := Except.ok.inj went
      exact Outcome.keeps_of_stores_nil ⟨mm, mapped, rfl, rfl⟩ rfl rfl
    · obtain rfl := Except.ok.inj went
      have here : Reaches platform kernel.memory mm.firstRegion walk.region :=
        visits.region ▸ visits.previous.next valid
      exact ⟨here, rfl, rfl⟩

/-- `sys_tso_mm_free` once there is a mapping. -/
theorem sysTsoMmFree_keeps (mapped : kernel.currentMm = some mm) {outcome : Outcome}
    (returned : sysTsoMmFree platform fuel addr kernel = .ok outcome) :
    outcome.Keeps platform mm kernel.memory
      ((Call.free addr).FindsSound platform mm kernel.memory) := by
  simp only [sysTsoMmFree, mapped] at returned
  by_cases empty : mm.firstRegion = 0
  · rw [if_pos empty] at returned
    obtain rfl := Except.ok.inj returned
    exact Outcome.keeps_of_stores_nil ⟨mm, mapped, rfl, rfl⟩ rfl rfl
  rw [if_neg empty] at returned
  by_cases here : platform.add mm.firstRegion platform.headerSize = addr
  · simp only [here, if_true, readNext, readSize, empty, if_false, bind, Except.bind] at returned
    obtain rfl := Except.ok.inj returned
    exact Outcome.keeps_of_stores_nil ⟨_, rfl, rfl, rfl⟩ rfl rfl
  · simp only [here, if_false, readNext, empty, bind, Except.bind] at returned
    have start : (Walk.at platform mm.firstRegion
        (kernel.memory.load platform.wordBytes mm.firstRegion)).Visits platform mm
          kernel.memory := ⟨.first empty, rfl, rfl⟩
    exact BoundedLoop.run_rule (Walk.Visits platform mm kernel.memory)
      (fun _ _ visits went => visits.round mapped went) start returned

/-- A legal call works on a mapping that `vm_mmap` may have returned, which is that of the task if
it has one, or it touches neither record nor memory. -/
theorem invoke_keeps (granted : kernel.HasGranted platform) {call : Call}
    (legal : call.Legal platform kernel) {outcome : Outcome}
    (returned : invoke platform fuel kernel call = .ok outcome) :
    (∃ mm, mm.Granted platform ∧ (kernel.currentMm = some mm ∨ mm.firstRegion = 0) ∧
        outcome.Keeps platform mm kernel.memory (call.FindsSound platform mm kernel.memory)) ∨
      outcome.kernel.currentMm = kernel.currentMm ∧ outcome.kernel.memory = kernel.memory ∧
        outcome.stores = [] := by
  cases call with
  | alloc environment size =>
    obtain ⟨grants, fits⟩ := legal
    obtain ⟨mm, uses, range, origin⟩ : ∃ mm, kernel.Uses platform environment mm ∧
        mm.Granted platform ∧ (kernel.currentMm = some mm ∨ mm.firstRegion = 0) := by
      cases mapped : kernel.currentMm with
      | some mm => exact ⟨mm, Or.inl mapped, granted mm mapped, Or.inl rfl⟩
      | none =>
        exact ⟨_, Or.inr ⟨mapped, by rw [tsoMmInitialize, if_pos grants.object]⟩,
          ⟨grants.start_pos, rfl, grants.fits⟩, Or.inr rfl⟩
    have worked : allocMapped platform fuel (fun _ => kernel.currentStrategy) environment size
        kernel mm = .ok outcome := (uses.alloc_eq _ _ size).symm.trans returned
    exact Or.inl ⟨mm, range, origin, allocMapped_keeps fits worked⟩
  | free addr =>
    obtain ⟨mm, mapped⟩ := Option.ne_none_iff_exists'.mp legal
    exact Or.inl ⟨mm, granted mm mapped, Or.inl mapped, sysTsoMmFree_keeps mapped returned⟩
  | switchStrategy strategy =>
    obtain rfl := Except.ok.inj returned
    exact Or.inr ⟨rfl, rfl, rfl⟩

theorem Call.findsSound_of_empty (call : Call) (empty : mm.firstRegion = 0) :
    call.FindsSound platform mm memory := by
  cases call with
  | alloc environment size => exact fun region roomy => absurd empty roomy.1.first_ne_zero
  | free addr => exact fun region reached => absurd empty reached.first_ne_zero
  | switchStrategy strategy => exact trivial

/-- A legal call that finds sound what it stores through stores inside the mapping. -/
theorem Kernel.HasGranted.writesInside (granted : kernel.HasGranted platform) {call : Call}
    (sound : ∀ mm, kernel.currentMm = some mm → call.FindsSound platform mm kernel.memory)
    (legal : call.Legal platform kernel) : kernel.WritesInside platform call := by
  intro fuel outcome returned
  rcases invoke_keeps granted legal returned with ⟨mm, range, origin, keeps⟩ | ⟨_, same, nothing⟩
  · obtain ⟨⟨after, mapped, start, size⟩, frame, inside⟩ := keeps
    have stored := inside range (origin.elim (sound mm) call.findsSound_of_empty)
    rw [← start, ← size] at stored
    refine ⟨fun word member => ⟨after, mapped, stored word member⟩, fun byte changed => ?_⟩
    refine ⟨after, mapped, ?_⟩
    by_contra outside
    refine changed (frame byte fun word member hit => ?_)
    obtain ⟨low, high⟩ := stored word member
    obtain ⟨above, below⟩ := hit
    omega
  · rw [nothing, same]
    exact ⟨fun word member => absurd member List.not_mem_nil,
      fun byte changed => absurd rfl changed⟩

/-! ### Runs -/

/-- Whatever a task writes and calls, its mapping stays what `vm_mmap` returned. -/
theorem granted_of_run {start after : Kernel} {actions : List Action} (fresh : start.Fresh)
    (run : Run (TamperStep platform) start actions after) : after.HasGranted platform := by
  have started : start.HasGranted platform := by
    intro mm mapped
    rw [fresh.1] at mapped
    cases mapped
  refine run.invariant started ?_
  intro before action after granted step
  cases action with
  | call event =>
    obtain ⟨legal, fuel, outcome, returned, _, rfl⟩ := step
    rcases invoke_keeps granted legal returned with ⟨mm, range, _, keeps⟩ | ⟨same, _, _⟩
    · obtain ⟨other, mapped, start, size⟩ := keeps.record
      intro found foundMapped
      obtain rfl := Option.some.inj (mapped.symm.trans foundMapped)
      exact ⟨start ▸ range.start_pos, size.trans range.size, by rw [start, size]; exact range.fits⟩
    · intro mm mapped
      exact granted mm (same ▸ mapped)
  | write byte value =>
    obtain ⟨mm, mapped, _, _, rfl⟩ := step
    exact granted

/-- The regions that are reached are those of the layout that the headers describe. -/
theorem Reaches.split {layout : Layout platform} (describes : Describes mm memory layout)
    {addr : Nat} (reached : Reaches platform memory mm.firstRegion addr) :
    ∃ front region back, layout.regions = front ++ region :: back ∧ region.addr = addr ∧
      Listed platform memory addr (region :: back) := by
  have listed := describes.listed
  induction reached with
  | first valid =>
    cases shape : layout.regions with
    | nil =>
      rw [shape] at listed
      exact absurd (listed_nil.mp listed) valid
    | cons region rest =>
      rw [shape] at listed
      exact ⟨[], region, rest, rfl, (listed_cons.mp listed).1.symm, listed⟩
  | next _ valid inductionHypothesis =>
    obtain ⟨front, region, back, split, rfl, listedHere⟩ := inductionHypothesis
    have tail := (listed_cons.mp listedHere).2.2.2
    cases back with
    | nil => exact absurd (listed_nil.mp tail) valid
    | cons next rest =>
      refine ⟨front ++ [region], next, rest, ?_, (listed_cons.mp tail).1.symm, tail⟩
      rw [split, List.append_assoc, List.singleton_append]

/-- Headers that describe a layout are sound, whoever wrote them. -/
theorem Describes.sound {layout : Layout platform} (describes : Describes mm memory layout)
    {addr : Nat} (reached : Reaches platform memory mm.firstRegion addr) :
    Sound platform mm memory addr := by
  obtain ⟨front, region, back, split, rfl, listed⟩ := reached.split describes
  obtain ⟨_, _, size, tail⟩ := listed_cons.mp listed
  have within {other : Region} (member : other ∈ region :: back) :
      mm.start ≤ other.addr ∧ other.top platform ≤ mm.start + mm.size := by
    rw [describes.start, describes.size]
    exact layout.within (split ▸ List.mem_append_right front member)
  obtain ⟨low, high⟩ := within List.mem_cons_self
  unfold Region.top at high
  refine ⟨low, by omega, fun valid => ?_, ?_⟩
  · cases back with
    | nil => exact absurd (listed_nil.mp tail) valid
    | cons next rest =>
      have ordered := layout.packed.pairwise
      rw [split] at ordered
      have below := List.rel_of_pairwise_cons (List.pairwise_append.mp ordered).2.1
        (List.mem_cons_self (a := next) (l := rest))
      rw [size, (listed_cons.mp tail).1, Nat.add_assoc]
      exact below
  · cases back with
    | nil =>
      rw [listed_nil.mp tail]
      exact Nat.zero_le _
    | cons next rest =>
      have nextHigh := (within (List.mem_cons_of_mem _ List.mem_cons_self)).2
      have nextBelow := next.addr_lt_top platform
      rw [(listed_cons.mp tail).1]
      omega

/-- In every state that a run of legal calls and of arbitrary writes of the task to its mapping
reaches, every legal call that finds sound the regions it stores through stores inside the
mapping, and these stores change no other byte. -/
theorem writesInside_of_run {start kernel : Kernel} {actions : List Action} (fresh : start.Fresh)
    (run : Run (TamperStep platform) start actions kernel) {call : Call}
    (sound : ∀ mm, kernel.currentMm = some mm → call.FindsSound platform mm kernel.memory)
    (legal : call.Legal platform kernel) : kernel.WritesInside platform call :=
  (granted_of_run fresh run).writesInside sound legal

/-- A task writes over the size in the header of its block and allocates another one, whose header
is stored outside the mapping; the free of that one stores inside. -/
theorem writesInside_sample : ∃ actions kernel,
    Run (TamperStep Platform.i386) (Kernel.boot fun _ => 0) actions kernel ∧
      kernel.currentMm = some ⟨0x1000, 0x1000, 32768, 32736⟩ ∧
        nextOf Platform.i386 kernel.memory 0x1000 = 0x70001010 ∧
          kernel.WritesInside Platform.i386 (.free 0x70001018) := by
  obtain ⟨events, after, run, seen⟩ := exists_run Platform.i386 9 (Kernel.boot fun _ => 0)
    [.alloc .secondPage 8]
    (fun state => (state.1, state.2.currentMm,
      (invoke Platform.i386 9
        { state.2 with memory := Function.update state.2.memory 0x1007 0x70 }
        (.alloc .secondPage 8)).toOption.map fun outcome =>
          (outcome.kernel.currentMm, nextOf Platform.i386 outcome.kernel.memory 0x1000,
            nextOf Platform.i386 outcome.kernel.memory 0x70001010)))
    (show _ = some ([⟨.alloc .secondPage 8, ⟨0, some 0x1008⟩⟩],
      some ⟨0x1000, 0x1000, 32768, 32752⟩,
      some (some ⟨0x1000, 0x1000, 32768, 32736⟩, 0x70001010, 0)) by decide +kernel)
  obtain ⟨rfl, rest⟩ := Prod.mk.inj seen
  obtain ⟨mapped, computed⟩ := Prod.mk.inj rest
  obtain ⟨outcome, returned, left⟩ := exists_outcome Platform.i386 9 _ _ _ computed
  obtain ⟨range, words⟩ := Prod.mk.inj left
  obtain ⟨first, second⟩ := Prod.mk.inj words
  have step := run_singleton.mp run
  have called : TamperStep Platform.i386 (Kernel.boot fun _ => 0)
      (.call ⟨.alloc .secondPage 8, ⟨0, some 0x1008⟩⟩) after := step
  have written : TamperStep Platform.i386 after (.write 0x1007 0x70)
      { after with memory := Function.update after.memory 0x1007 0x70 } :=
    ⟨_, mapped, by decide, by decide, rfl⟩
  have outside : TamperStep Platform.i386
      { after with memory := Function.update after.memory 0x1007 0x70 }
      (.call ⟨.alloc .secondPage 8, outcome.answer⟩) outcome.kernel :=
    ⟨⟨by decide, by decide⟩, 9, outcome, returned, rfl, rfl⟩
  have session := Run.cons called (Run.cons written (run_singleton.mpr outside))
  refine ⟨_, _, session, range, first, ?_⟩
  refine writesInside_of_run (Kernel.fresh_boot _) session (fun mm found region reached => ?_) ?_
  · obtain rfl := Option.some.inj (range.symm.trans found)
    have regions : region = 0x1000 ∨ region = 0x70001010 := by
      induction reached with
      | first _ => exact Or.inl rfl
      | next _ valid inductionHypothesis =>
        rcases inductionHypothesis with rfl | rfl
        · exact Or.inr first
        · exact absurd second valid
    rcases regions with rfl | rfl
    · exact fun _ _ => by decide
    · exact fun valid => absurd second valid
  · exact fun unmapped => Option.some_ne_none _ (range.symm.trans unmapped)

/-- A task writes over the size in the header of its block, and allocates another one. -/
theorem not_writesInside_tampered : ¬ ∀ actions kernel,
    Run (TamperStep Platform.i386) (Kernel.boot fun _ => 0) actions kernel →
      ∀ call : Call, call.Legal Platform.i386 kernel →
        kernel.WritesInside Platform.i386 call := by
  intro claimed
  obtain ⟨events, after, run, seen⟩ := exists_run Platform.i386 9 (Kernel.boot fun _ => 0)
    [.alloc .secondPage 8]
    (fun state => (state.1, state.2.currentMm,
      (invoke Platform.i386 9
        { state.2 with memory := Function.update state.2.memory 0x1007 0x70 }
        (.alloc .secondPage 8)).toOption.map fun outcome =>
          (outcome.stores, outcome.kernel.currentMm)))
    (show _ = some ([⟨.alloc .secondPage 8, ⟨0, some 0x1008⟩⟩],
      some ⟨0x1000, 0x1000, 32768, 32752⟩,
      some ([0x70001014, 0x70001010, 0x1000], some ⟨0x1000, 0x1000, 32768, 32736⟩))
      by decide +kernel)
  obtain ⟨rfl, rest⟩ := Prod.mk.inj seen
  obtain ⟨mapped, computed⟩ := Prod.mk.inj rest
  obtain ⟨outcome, returned, left⟩ := exists_outcome Platform.i386 9 _ _ _ computed
  obtain ⟨stores, range⟩ := Prod.mk.inj left
  have step := run_singleton.mp run
  have called : TamperStep Platform.i386 (Kernel.boot fun _ => 0)
      (.call ⟨.alloc .secondPage 8, ⟨0, some 0x1008⟩⟩) after := step
  have written : TamperStep Platform.i386 after (.write 0x1007 0x70)
      { after with memory := Function.update after.memory 0x1007 0x70 } :=
    ⟨_, mapped, by decide, by decide, rfl⟩
  have inside := claimed _ _ (Run.cons called (run_singleton.mpr written))
    (.alloc .secondPage 8) ⟨by decide, by decide⟩ 9 outcome returned
  have stored : 0x70001010 ∈ outcome.stores := by
    rw [stores]
    decide
  obtain ⟨mm, found, _, high⟩ := inside.1 0x70001010 stored
  obtain rfl := Option.some.inj (range.symm.trans found)
  exact absurd high (by decide)

end TsoAlloc
