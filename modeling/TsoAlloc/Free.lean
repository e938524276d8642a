/-
This file proves what `sys_tso_mm_free` does to a mapping. On a layout the walk compares
the payload address of one region after another; a region that matches is unlinked,
through the record when it is the first one and through the region before it otherwise,
and its bytes go back to the counter. When none matches nothing changes, but the return
value is not always the same: with a single region the loop is never entered and the
call returns 0.
-/

import TsoAlloc.Alloc

namespace TsoAlloc

open Extents

section

variable (platform : Platform)

/-- What a call leaves behind that unlinked the first region. -/
def unlinkedFirst (kernel : Kernel) (mm : TsoMmMapping) (region : Region) : Outcome where
  kernel := { kernel with
    currentMm := some { mm with
      firstRegion := nextOf platform kernel.memory region.addr
      free := platform.add mm.free (regionSize platform region.size) } }
  ret := 0
  delivered := none
  stores := []

/-- What a call leaves behind that unlinked a region behind another one. -/
def unlinkedBehind (kernel : Kernel) (mm : TsoMmMapping) (behind region : Region) : Outcome where
  kernel := { kernel with
    currentMm := some { mm with
      free := platform.add mm.free (regionSize platform region.size) }
    memory := kernel.memory.store platform.wordBytes behind.addr
      (nextOf platform kernel.memory region.addr) }
  ret := 0
  delivered := none
  stores := [behind.addr]

/-- What a call leaves behind that changed nothing. -/
def unchanged (kernel : Kernel) (ret : Int) : Outcome where
  kernel := kernel
  ret := ret
  delivered := none
  stores := []

/-- The comparison of the walk: the computed payload address of a region is the argument. -/
def Matches (addr : Nat) (region : Region) : Prop :=
  platform.add region.addr platform.headerSize = addr

instance (addr : Nat) (region : Region) : Decidable (Matches platform addr region) :=
  inferInstanceAs (Decidable (_ = _))

end

variable {platform : Platform} {kernel : Kernel} {mm : TsoMmMapping} {layout : Layout platform}
  {addr fuel : Nat}

/-! ### The walk behind the first region -/

theorem round_pass {behind region next : Region} {rest : List Region}
    (listed : Listed platform kernel.memory region.addr (region :: next :: rest))
    (other : ¬ Matches platform addr region) :
    Walk.round platform kernel mm addr (Walk.at platform behind.addr region.addr) =
      .ok (.inl (Walk.at platform region.addr next.addr)) := by
  obtain ⟨_, valid, _, tail⟩ := listed_cons.mp listed
  obtain ⟨there, validNext, _, _⟩ := listed_cons.mp tail
  unfold nextOf at there
  have apart : platform.add region.addr platform.headerSize ≠ addr := other
  simp only [Walk.round, Walk.at, valid, if_false, apart, readNext, bind, Except.bind, there,
    validNext]

/-- The last region of the list, when it does not match, ends the walk with an error. -/
theorem round_miss {behind region : Region}
    (listed : Listed platform kernel.memory region.addr [region])
    (other : ¬ Matches platform addr region) :
    Walk.round platform kernel mm addr (Walk.at platform behind.addr region.addr) =
      .ok (.inr (unchanged kernel (-1))) := by
  obtain ⟨_, valid, _, tail⟩ := listed_cons.mp listed
  have ends : kernel.memory.load platform.wordBytes region.addr = 0 := listed_nil.mp tail
  have apart : platform.add region.addr platform.headerSize ≠ addr := other
  simp only [Walk.round, Walk.at, valid, if_false, apart, readNext, bind, Except.bind, ends,
    if_true]
  rfl

/-- A region that matches is unlinked from the region before it. -/
theorem round_hit {front back : List Region} {behind region : Region}
    (split : layout.regions = front ++ behind :: region :: back)
    (listed : Listed platform kernel.memory region.addr (region :: back))
    (found : Matches platform addr region) :
    Walk.round platform kernel mm addr (Walk.at platform behind.addr region.addr) =
      .ok (.inr (unlinkedBehind platform kernel mm behind region)) := by
  obtain ⟨_, valid, size, _⟩ := listed_cons.mp listed
  have member : behind ∈ layout.regions := by
    rw [split]
    exact List.mem_append_cons_self
  have validBehind := layout.addr_ne_zero member
  have kept : SameHeader platform kernel.memory
      (kernel.memory.store platform.wordBytes behind.addr
        (nextOf platform kernel.memory region.addr)) region.addr :=
    layout.sameHeader split (List.mem_append_right _ List.mem_cons_self)
      fun byte outside => store_of_outside outside
  have listedRegion : region ∈ layout.regions := by
    rw [split]
    simp
  have sameSize := (sizeOf_congr (layout.header_fits listedRegion) kept).trans size
  unfold sizeOf nextOf at sameSize
  have here : platform.add region.addr platform.headerSize = addr := found
  simp only [Walk.round, Walk.at, valid, validBehind, if_false, here, if_true, readNext, readSize,
    writeNext, bind, Except.bind, sameSize]
  rfl

/-- Without a match the walk behind the first region ends with an error. -/
theorem run_miss {behind region : Region} {rest : List Region}
    (listed : Listed platform kernel.memory region.addr (region :: rest))
    (others : ∀ other ∈ region :: rest, ¬ Matches platform addr other)
    (enough : rest.length < fuel) :
    BoundedLoop.run .timeout (Walk.round platform kernel mm addr) fuel
        (Walk.at platform behind.addr region.addr) = .ok (unchanged kernel (-1)) := by
  induction rest generalizing behind region fuel with
  | nil =>
    obtain ⟨fuel, rfl⟩ : ∃ less, fuel = less + 1 := ⟨fuel - 1, by omega⟩
    rw [BoundedLoop.run_succ, round_miss listed (others region List.mem_cons_self)]
    rfl
  | cons next rest inductionHypothesis =>
    obtain ⟨fuel, rfl⟩ : ∃ less, fuel = less + 1 := ⟨fuel - 1, by omega⟩
    have tail := (listed_cons.mp listed).2.2.2
    have here : nextOf platform kernel.memory region.addr = next.addr := (listed_cons.mp tail).1
    rw [here] at tail
    rw [BoundedLoop.run_succ, round_pass listed (others region List.mem_cons_self)]
    rw [List.length_cons] at enough
    exact inductionHypothesis tail
      (fun other member => others other (List.mem_cons_of_mem _ member)) (by omega)

/-- The first match behind the first region is unlinked from the region before it. -/
theorem run_hit {front middle back : List Region} {first behind region : Region}
    (split : layout.regions = front ++ (first :: middle) ++ region :: back)
    (last : (first :: middle).getLast? = some behind)
    (listed : Listed platform kernel.memory (nextOf platform kernel.memory first.addr)
      (middle ++ region :: back))
    (others : ∀ other ∈ middle, ¬ Matches platform addr other)
    (found : Matches platform addr region) (enough : middle.length < fuel) :
    BoundedLoop.run .timeout (Walk.round platform kernel mm addr) fuel
        (Walk.at platform first.addr (nextOf platform kernel.memory first.addr)) =
      .ok (unlinkedBehind platform kernel mm behind region) := by
  induction middle generalizing front first fuel with
  | nil =>
    obtain ⟨fuel, rfl⟩ : ∃ less, fuel = less + 1 := ⟨fuel - 1, by omega⟩
    obtain rfl : first = behind := Option.some.inj last
    have here := (listed_cons.mp listed).1
    rw [here] at listed ⊢
    rw [List.append_assoc, List.singleton_append] at split
    rw [BoundedLoop.run_succ, round_hit split listed found]
    rfl
  | cons next middle inductionHypothesis =>
    obtain ⟨fuel, rfl⟩ : ∃ less, fuel = less + 1 := ⟨fuel - 1, by omega⟩
    obtain ⟨here, _, _, tail⟩ := listed_cons.mp listed
    have step : Walk.round platform kernel mm addr (Walk.at platform first.addr next.addr) =
        .ok (.inl (Walk.at platform next.addr (nextOf platform kernel.memory next.addr))) := by
      rw [here] at listed
      cases middle with
      | nil =>
        rw [round_pass listed (others next List.mem_cons_self), (listed_cons.mp tail).1]
      | cons other middle =>
        rw [round_pass listed (others next List.mem_cons_self), (listed_cons.mp tail).1]
    have further : layout.regions = (front ++ [first]) ++ (next :: middle) ++ region :: back := by
      rw [split]
      simp only [List.append_assoc, List.cons_append, List.nil_append]
    rw [List.length_cons] at enough
    rw [here, BoundedLoop.run_succ, step]
    exact inductionHypothesis further last tail
      (fun other member => others other (List.mem_cons_of_mem _ member)) (by omega)

/-! ### The call on a layout -/

/-- An address that no region matches changes nothing. The return value is 0 when there is
exactly one region. -/
theorem free_miss (mapped : kernel.currentMm = some mm)
    (describes : Describes mm kernel.memory layout)
    (others : ∀ region ∈ layout.regions, ¬ Matches platform addr region)
    (enough : layout.regions.length ≤ fuel) :
    sysTsoMmFree platform fuel addr kernel =
      .ok (unchanged kernel (if layout.regions.length = 1 then 0 else -1)) := by
  have listed := describes.listed
  simp only [sysTsoMmFree, mapped]
  cases shape : layout.regions with
  | nil =>
    rw [shape] at listed
    rw [if_pos (listed_nil.mp listed)]
    rfl
  | cons region rest =>
    rw [shape] at listed others enough
    obtain ⟨here, valid, _, tail⟩ := listed_cons.mp listed
    have apart : platform.add region.addr platform.headerSize ≠ addr :=
      others region List.mem_cons_self
    obtain ⟨fuel, rfl⟩ : ∃ less, fuel = less + 1 := ⟨fuel - 1, by
      rw [List.length_cons] at enough
      omega⟩
    simp only [here, valid, if_false, apart, readNext, bind, Except.bind]
    cases rest with
    | nil =>
      have ends : kernel.memory.load platform.wordBytes region.addr = 0 := listed_nil.mp tail
      rw [ends, BoundedLoop.run_succ, Walk.round]
      simp only [Walk.at, if_true]
      rfl
    | cons next rest =>
      have there : kernel.memory.load platform.wordBytes region.addr = next.addr :=
        (listed_cons.mp tail).1
      have onward := tail
      unfold nextOf at onward
      rw [there] at onward ⊢
      rw [run_miss onward (fun other member => others other (List.mem_cons_of_mem _ member)) (by
        simp only [List.length_cons] at enough
        omega)]
      simp

theorem free_first {region : Region} {back : List Region} (mapped : kernel.currentMm = some mm)
    (describes : Describes mm kernel.memory layout) (split : layout.regions = region :: back)
    (found : Matches platform addr region) :
    sysTsoMmFree platform fuel addr kernel = .ok (unlinkedFirst platform kernel mm region) := by
  have listed := describes.listed
  rw [split] at listed
  obtain ⟨first, valid, size, _⟩ := listed_cons.mp listed
  have here : platform.add region.addr platform.headerSize = addr := found
  unfold sizeOf at size
  simp only [sysTsoMmFree, mapped, first, valid, if_false, here, if_true, readNext, readSize, bind,
    Except.bind, size]
  rfl

/-- The first match behind the first region unlinks it from the region before it. -/
theorem free_behind {front back : List Region} {behind region : Region}
    (mapped : kernel.currentMm = some mm) (describes : Describes mm kernel.memory layout)
    (split : layout.regions = front ++ behind :: region :: back)
    (others : ∀ other ∈ front ++ [behind], ¬ Matches platform addr other)
    (found : Matches platform addr region) (enough : layout.regions.length ≤ fuel) :
    sysTsoMmFree platform fuel addr kernel =
      .ok (unlinkedBehind platform kernel mm behind region) := by
  obtain ⟨first, middle, shape⟩ : ∃ first middle, front ++ [behind] = first :: middle := by
    cases front with
    | nil => exact ⟨behind, [], rfl⟩
    | cons first front => exact ⟨first, front ++ [behind], rfl⟩
  have whole : layout.regions = [] ++ (first :: middle) ++ region :: back := by
    rw [split, List.nil_append, ← shape, List.append_assoc, List.singleton_append]
  have last : (first :: middle).getLast? = some behind := by
    rw [← shape, List.getLast?_concat]
  have listed := describes.listed
  rw [whole] at listed
  obtain ⟨here, valid, _, tail⟩ := listed_cons.mp listed
  rw [shape] at others
  have apart : platform.add first.addr platform.headerSize ≠ addr :=
    others first List.mem_cons_self
  have shorter : middle.length < fuel := by
    rw [whole] at enough
    simp only [List.nil_append, List.length_append, List.length_cons] at enough
    omega
  have walked : BoundedLoop.run .timeout (Walk.round platform kernel mm addr) fuel
      (Walk.at platform first.addr (nextOf platform kernel.memory first.addr)) =
        .ok (unlinkedBehind platform kernel mm behind region) :=
    run_hit whole last tail (fun other member => others other (List.mem_cons_of_mem _ member))
      found shorter
  simp only [sysTsoMmFree, mapped, here, valid, if_false, apart, readNext, bind, Except.bind]
  exact walked

/-- Either no region matches, or a first one does. -/
theorem match_cases (platform : Platform) (addr : Nat) (regions : List Region) :
    (∀ region ∈ regions, ¬ Matches platform addr region) ∨
      ∃ front region back, regions = front ++ region :: back ∧ Matches platform addr region ∧
        ∀ other ∈ front, ¬ Matches platform addr other := by
  cases found : regions.find? fun region => Matches platform addr region with
  | none =>
    left
    intro region member
    have none := List.find?_eq_none.mp found region member
    rwa [decide_eq_true_eq] at none
  | some region =>
    right
    obtain ⟨here, front, back, split, before⟩ := List.find?_eq_some_iff_append.mp found
    rw [decide_eq_true_eq] at here
    refine ⟨front, region, back, split, here, fun other member => ?_⟩
    have apart := before other member
    rwa [Bool.not_eq_true', decide_eq_false_iff_not] at apart

end TsoAlloc
