/-
This file follows the search for a gap over headers that anybody may have written. Nothing
is known of the list: it may run in a circle, leave the mapping or overlap itself. Still
the loop works on regions that `next` leads to from the first one, and what it returns with
`OK` is such a region, with a gap behind it that the loop has measured as large enough.
-/

import TsoAlloc.Headers

namespace TsoAlloc

section

variable (platform : Platform)

/-- The regions that following `next` from a first region comes to. -/
inductive Reaches (memory : ByteMemory) (first : Nat) : Nat → Prop
  | first : first ≠ 0 → Reaches memory first first
  | next {region : Nat} : Reaches memory first region → nextOf platform memory region ≠ 0 →
      Reaches memory first (nextOf platform memory region)

/-- The gap behind a region, as the loop of `tso_mm_get_fit` measures it. -/
def gapBehind (mm : TsoMmMapping) (memory : ByteMemory) (region : Nat) : Nat :=
  platform.sub
    (platform.sub (if nextOf platform memory region ≠ 0 then nextOf platform memory region
      else platform.add mm.start mm.size) region)
    (regionSize platform (sizeOf platform memory region))

/-- A region of the list with a large enough gap behind it, as the loop measures it. -/
def Roomy (mm : TsoMmMapping) (memory : ByteMemory) (size region : Nat) : Prop :=
  Reaches platform memory mm.firstRegion region ∧
    regionSize platform size < gapBehind platform mm memory region

/-- The loop of `tso_mm_get_fit` works on regions of the list, whatever the list is. -/
structure Scan.Visits (mm : TsoMmMapping) (memory : ByteMemory) (size : Nat) (scan : Scan) :
    Prop where
  next : scan.nextRegion ≠ 0 → Reaches platform memory mm.firstRegion scan.nextRegion
  previous : scan.previousRegion ≠ 0 →
    Reaches platform memory mm.firstRegion scan.previousRegion ∧
      scan.availableSize = gapBehind platform mm memory scan.previousRegion
  best : scan.bestMatch ≠ 0 → Roomy platform mm memory size scan.bestMatch

/-- What the search returns with `OK` is a region with a large enough gap behind it. -/
def Fitting (mm : TsoMmMapping) (memory : ByteMemory) (size : Nat)
    (result : Nat × FitConditions) : Prop :=
  result.2 = .ok → Roomy platform mm memory size result.1

end

variable {platform : Platform} {mm : TsoMmMapping} {memory : ByteMemory} {size fuel : Nat}

/-! ### What is reached -/

/-- Nothing is reached from an empty list. -/
theorem Reaches.first_ne_zero {first region : Nat}
    (reached : Reaches platform memory first region) : first ≠ 0 := by
  induction reached with
  | first valid => exact valid
  | next _ _ inductionHypothesis => exact inductionHypothesis

theorem Reaches.ne_zero {first region : Nat} (reached : Reaches platform memory first region) :
    region ≠ 0 := by
  cases reached with
  | first valid => exact valid
  | next _ valid => exact valid

/-! ### The loop -/

namespace Scan.Visits

variable {scan : Scan}

/-- Remembering a large enough gap. -/
theorem consider (visits : scan.Visits platform mm memory size) (observed : Nat → BitVec 32)
    (enough : regionSize platform size < scan.availableSize) :
    Scan.Visits platform mm memory size { scan with
      toChoice := scan.toChoice.consider observed scan.availableSize scan.previousRegion } where
  next := visits.next
  previous := visits.previous
  best := by
    intro valid
    unfold Choice.consider at valid ⊢
    dsimp only at valid ⊢
    split at valid
    · rename_i best
      obtain ⟨reached, available⟩ := visits.previous valid
      rw [available] at enough
      rw [if_pos best]
      exact ⟨reached, enough⟩
    · rename_i other
      rw [if_neg other]
      exact visits.best valid

/-- Stepping to the next region, or leaving the loop. -/
theorem advance (visits : scan.Visits platform mm memory size) {step : Scan ⊕ (Nat × FitConditions)}
    (advanced : scan.advance platform mm memory = .ok step) :
    Sum.elim (Scan.Visits platform mm memory size) (Fitting platform mm memory size) step := by
  unfold Scan.advance at advanced
  dsimp only at advanced
  split at advanced
  · obtain rfl := Except.ok.inj advanced
    intro ok
    unfold Choice.leave at ok ⊢
    dsimp only at ok ⊢
    split at ok
    · cases ok
    · rename_i unlike
      exact visits.best fun null => unlike ⟨ok, null⟩
  · rename_i listed
    simp only [readNext, readSize, if_neg listed, bind, Except.bind] at advanced
    obtain rfl := Except.ok.inj advanced
    have here := visits.next listed
    exact ⟨fun valid => here.next valid, fun _ => ⟨here, rfl⟩, visits.best⟩

/-- One round of the loop. -/
theorem round (visits : scan.Visits platform mm memory size) {observed : Nat → BitVec 32}
    {step : Scan ⊕ (Nat × FitConditions)}
    (went : scan.round platform observed mm memory size = .ok step) :
    Sum.elim (Scan.Visits platform mm memory size) (Fitting platform mm memory size) step := by
  unfold Scan.round at went
  split at went
  · rename_i enough
    split at went
    · obtain rfl := Except.ok.inj went
      intro ok
      dsimp only at ok ⊢
      split at ok
      · cases ok
      · rename_i valid
        obtain ⟨reached, available⟩ := visits.previous valid
        rw [available] at enough
        exact ⟨reached, enough⟩
    · exact (visits.consider observed enough).advance went
  · exact visits.advance went

end Scan.Visits

/-- `tso_mm_get_fit` over any headers. -/
theorem tsoMmGetFit_fitting {observed : Nat → BitVec 32} {result : Nat × FitConditions}
    (returned : tsoMmGetFit platform fuel observed mm memory size .noFit = .ok result) :
    Fitting platform mm memory size result := by
  unfold tsoMmGetFit at returned
  split at returned
  · obtain rfl := Except.ok.inj returned
    exact fun ok => nomatch ok
  · rename_i listed
    have start : (Scan.init platform observed mm .noFit).Visits platform mm memory size :=
      ⟨fun _ => .first listed, fun valid => absurd rfl valid, fun valid => absurd rfl valid⟩
    exact BoundedLoop.run_rule (Scan.Visits platform mm memory size)
      (fun _ _ visits went => visits.round went) start returned

end TsoAlloc
