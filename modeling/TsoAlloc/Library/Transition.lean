/-
This file treats labelled transition systems and their finite runs. A run lists
the events of consecutive steps. The two rules of use are the invariant rule (a
property of states kept by every step holds after every run) and the simulation
rule (a step of one system that is matched by a run of another, over the events an
observation keeps of it, lifts to whole runs).
-/

import Mathlib.Data.List.Basic

namespace Transition

variable {State Event : Type*}

/-- The states a sequence of events leads to, one step for each event. -/
inductive Run (step : State → Event → State → Prop) : State → List Event → State → Prop
  | nil (state : State) : Run step state [] state
  | cons {first second last : State} {event : Event} {events : List Event} :
      step first event second → Run step second events last →
        Run step first (event :: events) last

variable {step : State → Event → State → Prop}

theorem run_nil {first last : State} : Run step first [] last ↔ last = first := by
  constructor
  · rintro ⟨⟩
    rfl
  · rintro rfl
    exact Run.nil _

theorem run_cons {first last : State} {event : Event} {events : List Event} :
    Run step first (event :: events) last ↔
      ∃ second, step first event second ∧ Run step second events last := by
  constructor
  · rintro ⟨⟩
    exact ⟨_, ‹_›, ‹_›⟩
  · rintro ⟨second, here, rest⟩
    exact Run.cons here rest

/-- Runs compose. -/
theorem run_append {first last : State} {front back : List Event} :
    Run step first (front ++ back) last ↔
      ∃ middle, Run step first front middle ∧ Run step middle back last := by
  induction front generalizing first with
  | nil =>
    constructor
    · intro run
      exact ⟨first, Run.nil first, run⟩
    · rintro ⟨middle, start, run⟩
      rwa [run_nil.mp start] at run
  | cons event events inductionHypothesis =>
    constructor
    · intro run
      obtain ⟨second, here, rest⟩ := run_cons.mp run
      obtain ⟨middle, start, finish⟩ := inductionHypothesis.mp rest
      exact ⟨middle, Run.cons here start, finish⟩
    · rintro ⟨middle, start, finish⟩
      obtain ⟨second, here, rest⟩ := run_cons.mp start
      exact Run.cons here (inductionHypothesis.mpr ⟨middle, rest, finish⟩)

theorem run_singleton {first last : State} {event : Event} :
    Run step first [event] last ↔ step first event last := by
  rw [run_cons]
  constructor
  · rintro ⟨second, here, rest⟩
    rwa [run_nil.mp rest]
  · intro here
    exact ⟨last, here, Run.nil last⟩

/-- A property kept by every step is kept by every run. -/
theorem Run.invariant {Holds : State → Prop} {first last : State} {events : List Event}
    (run : Run step first events last) (start : Holds first)
    (kept : ∀ before event after, Holds before → step before event after → Holds after) :
    Holds last := by
  induction run with
  | nil state => exact start
  | cons here _ inductionHypothesis => exact inductionHypothesis (kept _ _ _ start here)

/-- A property kept by every step of a run, at the place where the run takes it, is kept by the
run. -/
theorem Run.along (Holds : State → Prop) {first last : State} {events : List Event}
    (run : Run step first events last) (start : Holds first)
    (kept : ∀ front event back before after, events = front ++ event :: back →
      Run step first front before → step before event after → Run step after back last →
        Holds before → Holds after) :
    Holds last := by
  induction run with
  | nil state => exact start
  | @cons first second last event events here rest inductionHypothesis =>
    refine inductionHypothesis (kept [] event events first second rfl (Run.nil first) here rest
      start) ?_
    intro front later back before after split walked step remaining held
    exact kept (event :: front) later back before after (by rw [split, List.cons_append])
      (Run.cons here walked) step remaining held

/-- Where the event decides the step, the events decide the run. -/
theorem Run.unique {first last other : State} {events : List Event}
    (run : Run step first events last) (otherRun : Run step first events other)
    (decided : ∀ before event left right, step before event left → step before event right →
      left = right) : last = other := by
  induction run with
  | nil state => exact (run_nil.mp otherRun).symm
  | cons here _ inductionHypothesis =>
    obtain ⟨second, there, rest⟩ := run_cons.mp otherRun
    obtain rfl := decided _ _ _ _ here there
    exact inductionHypothesis rest

/-- A run of one system is a run of every system that allows its steps. -/
theorem Run.mono {wider : State → Event → State → Prop} {first last : State}
    {events : List Event} (run : Run step first events last)
    (allowed : ∀ before event after, step before event after → wider before event after) :
    Run wider first events last := by
  induction run with
  | nil state => exact Run.nil state
  | cons here _ inductionHypothesis => exact Run.cons (allowed _ _ _ here) inductionHypothesis

/-- A step that the other system matches over what is observed of its event lifts to runs. -/
theorem Run.simulate {Abstract Observed : Type*} {match_ : Abstract → Observed → Abstract → Prop}
    {Related : State → Abstract → Prop} {observe : Event → List Observed}
    {first last : State} {events : List Event} (run : Run step first events last)
    {abstract : Abstract} (start : Related first abstract)
    (matched : ∀ before event after abstract, Related before abstract →
      step before event after →
        ∃ next, Run match_ abstract (observe event) next ∧ Related after next) :
    ∃ next, Run match_ abstract (events.flatMap observe) next ∧ Related last next := by
  induction run generalizing abstract with
  | nil state => exact ⟨abstract, Run.nil abstract, start⟩
  | cons here _ inductionHypothesis =>
    obtain ⟨middle, firstRun, related⟩ := matched _ _ _ _ start here
    obtain ⟨next, secondRun, relatedLast⟩ := inductionHypothesis related
    refine ⟨next, ?_, relatedLast⟩
    rw [List.flatMap_cons]
    exact run_append.mpr ⟨middle, firstRun, secondRun⟩

end Transition
