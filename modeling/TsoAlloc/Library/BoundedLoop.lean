/-
This file gives loops a meaning that Lean can compute. A loop body either goes
round again with new loop variables or leaves the loop with a result, and it may
fail on the way; `run` repeats it for a bounded number of rounds. The bound is
only a device: once some bound is enough, every larger one gives the same result,
so "the loop returns" is "some bound returns". `trail` lists what the rounds begin
with, which tells how a loop goes and not only what it comes to, and a loop whose rounds
follow an orbit ends exactly when the orbit comes to a point where it stops.
-/

import Mathlib.Logic.Function.Iterate
import Mathlib.Order.Basic

namespace BoundedLoop

variable {Failure Vars Result : Type*}

/-- A computation in two parts returns when both do. -/
theorem bind_eq_ok {Middle Last : Type*} {first : Except Failure Middle}
    {rest : Middle → Except Failure Last} {last : Last} :
    first.bind rest = .ok last ↔ ∃ middle, first = .ok middle ∧ rest middle = .ok last := by
  cases first with
  | error failure =>
    constructor
    · rintro ⟨⟩
    · rintro ⟨middle, ⟨⟩, _⟩
  | ok middle =>
    constructor
    · intro returned
      exact ⟨middle, rfl, returned⟩
    · rintro ⟨found, same, returned⟩
      rwa [Except.ok.inj same]

/-- Repeats `body` until it leaves the loop, for at most the given number of rounds. -/
def run (timeout : Failure) (body : Vars → Except Failure (Vars ⊕ Result)) :
    Nat → Vars → Except Failure Result
  | 0, _ => .error timeout
  | fuel + 1, vars =>
    match body vars with
    | .error failure => .error failure
    | .ok (.inl next) => run timeout body fuel next
    | .ok (.inr result) => .ok result

/-- What becomes of one round of the loop: it ends the loop, or the rest of the rounds follow. -/
def resume (timeout : Failure) (body : Vars → Except Failure (Vars ⊕ Result)) (fuel : Nat) :
    Except Failure (Vars ⊕ Result) → Except Failure Result
  | .error failure => .error failure
  | .ok (.inl next) => run timeout body fuel next
  | .ok (.inr result) => .ok result

variable {timeout : Failure} {body : Vars → Except Failure (Vars ⊕ Result)}

theorem run_succ (fuel : Nat) (vars : Vars) :
    run timeout body (fuel + 1) vars = resume timeout body fuel (body vars) := by
  rw [run]
  unfold resume
  rfl

/-- The first rounds of the loop: the variables after them, or the result if one of them left the
loop. -/
def rounds (body : Vars → Except Failure (Vars ⊕ Result)) :
    Nat → Vars → Except Failure (Vars ⊕ Result)
  | 0, vars => .ok (.inl vars)
  | count + 1, vars =>
    match body vars with
    | .error failure => .error failure
    | .ok (.inl next) => rounds body count next
    | .ok (.inr result) => .ok (.inr result)

theorem rounds_succ (count : Nat) {vars : Vars} {step : Vars ⊕ Result}
    (went : body vars = .ok step) :
    rounds body (count + 1) vars = Sum.elim (rounds body count) (fun result => .ok (.inr result))
      step := by
  rw [rounds, went]
  cases step <;> rfl

/-- What the first rounds of a loop come to is what the loop comes to, which times out when it goes
on. -/
theorem run_eq_rounds (count : Nat) (vars : Vars) :
    run timeout body count vars =
      (rounds body count vars).bind (Sum.elim (fun _ => .error timeout) .ok) := by
  induction count generalizing vars with
  | zero => rfl
  | succ count inductionHypothesis =>
    rw [run_succ]
    cases went : body vars with
    | error failure =>
      rw [rounds, went]
      rfl
    | ok step =>
      rw [rounds_succ count went]
      cases step with
      | inl next => exact inductionHypothesis next
      | inr found => rfl

/-- When no round that starts from the invariant fails, no number of rounds does. -/
theorem rounds_rule (Invariant : Vars → Prop) {Post : Result → Prop}
    (round : ∀ vars, Invariant vars →
      ∃ step, body vars = .ok step ∧ Sum.elim Invariant Post step)
    (count : Nat) {vars : Vars} (start : Invariant vars) :
    ∃ step, rounds body count vars = .ok step ∧ Sum.elim Invariant Post step := by
  induction count generalizing vars with
  | zero => exact ⟨.inl vars, rfl, start⟩
  | succ count inductionHypothesis =>
    obtain ⟨step, went, holds⟩ := round vars start
    rw [rounds_succ count went]
    cases step with
    | inl next => exact inductionHypothesis holds
    | inr result => exact ⟨.inr result, rfl, holds⟩

/-- A loop returns when every round lowers a variant. -/
theorem run_variant (Invariant : Vars → Prop) {Post : Result → Prop} (variant : Vars → Nat)
    (round : ∀ vars, Invariant vars → ∃ step, body vars = .ok step ∧
      Sum.elim (fun next => Invariant next ∧ variant next < variant vars) Post step)
    {fuel : Nat} {vars : Vars} (start : Invariant vars) (enough : variant vars < fuel) :
    ∃ result, run timeout body fuel vars = .ok result ∧ Post result := by
  induction fuel generalizing vars with
  | zero => exact absurd enough (Nat.not_lt_zero _)
  | succ fuel inductionHypothesis =>
    obtain ⟨step, went, holds⟩ := round vars start
    rw [run_succ, went]
    cases step with
    | inl next =>
      exact inductionHypothesis holds.1 (Nat.lt_of_lt_of_le holds.2 (Nat.le_of_lt_succ enough))
    | inr result => exact ⟨result, rfl, holds⟩

/-- The rule for loops: what every round keeps while the loop goes on, and turns into the
postcondition where it ends, gives the postcondition of the result. -/
theorem run_rule (Invariant : Vars → Prop) {Post : Result → Prop}
    (round : ∀ vars step, Invariant vars → body vars = .ok step → Sum.elim Invariant Post step)
    {fuel : Nat} {vars : Vars} {result : Result} (start : Invariant vars)
    (returned : run timeout body fuel vars = .ok result) : Post result := by
  induction fuel generalizing vars with
  | zero => cases returned
  | succ fuel inductionHypothesis =>
    rw [run] at returned
    split at returned
    · cases returned
    · rename_i next went
      exact inductionHypothesis (round vars (.inl next) start went) returned
    · rename_i found went
      obtain rfl := Except.ok.inj returned
      exact round vars (.inr found) start went

/-! ### The trail of a loop -/

/-- The loop variables at the beginning of each round, for at most the given number of rounds. -/
def trail (body : Vars → Except Failure (Vars ⊕ Result)) : Nat → Vars → List Vars
  | 0, _ => []
  | count + 1, vars =>
    vars :: match body vars with
      | .ok (.inl next) => trail body count next
      | .ok (.inr _) => []
      | .error _ => []

theorem trail_succ_of_next {vars next : Vars} (count : Nat) (went : body vars = .ok (.inl next)) :
    trail body (count + 1) vars = vars :: trail body count next := by
  rw [trail, went]

theorem trail_succ_of_end {vars : Vars} (count : Nat)
    (ended : ∀ next, body vars ≠ .ok (.inl next)) :
    trail body (count + 1) vars = [vars] := by
  rw [trail]
  split
  · rename_i next went
    exact absurd went (ended next)
  · rfl
  · rfl

theorem next_or_end (body : Vars → Except Failure (Vars ⊕ Result)) (vars : Vars) :
    (∃ next, body vars = .ok (.inl next)) ∨ ∀ next, body vars ≠ .ok (.inl next) :=
  (Classical.em _).imp_right not_exists.mp

/-- What every round keeps holds at the beginning of every round. -/
theorem trail_rule (Invariant : Vars → Prop)
    (round : ∀ vars next, Invariant vars → body vars = .ok (.inl next) → Invariant next)
    (count : Nat) {vars : Vars} (start : Invariant vars) :
    ∀ later ∈ trail body count vars, Invariant later := by
  induction count generalizing vars with
  | zero => exact fun later member => absurd member List.not_mem_nil
  | succ count inductionHypothesis =>
    obtain ⟨next, went⟩ | ended := next_or_end body vars
    · rw [trail_succ_of_next count went]
      intro later member
      rcases List.mem_cons.mp member with rfl | member
      · exact start
      · exact inductionHypothesis (round vars next start went) later member
    · rw [trail_succ_of_end count ended]
      intro later member
      rwa [List.mem_singleton.mp member]

section

variable {Item : Type*} {item : Vars → Item} {Stands : Vars → List Item → Prop}

/-- A loop whose every round stands at the first item that is left, and leaves the others to the
next round, goes along the items. -/
theorem trail_along
    (round : ∀ vars items, Stands vars items → ∃ rest, items = item vars :: rest ∧
      ∀ next, body vars = .ok (.inl next) → Stands next rest)
    (count : Nat) {vars : Vars} {items : List Item} (start : Stands vars items) :
    (trail body count vars).map item <+: items := by
  induction count generalizing vars items with
  | zero => exact List.nil_prefix
  | succ count inductionHypothesis =>
    obtain ⟨rest, rfl, follows⟩ := round vars items start
    obtain ⟨next, went⟩ | ended := next_or_end body vars
    · rw [trail_succ_of_next count went, List.map_cons, List.cons_prefix_cons]
      exact ⟨rfl, inductionHypothesis (follows next went)⟩
    · rw [trail_succ_of_end count ended]
      exact List.prefix_append [item vars] rest

/-- It goes along all of them when it goes on as long as there are some. -/
theorem trail_through
    (round : ∀ vars items, Stands vars items → ∃ rest, items = item vars :: rest ∧
      ∀ next, body vars = .ok (.inl next) → Stands next rest)
    {count : Nat} {vars : Vars} {items : List Item} (start : Stands vars items)
    (enough : items.length ≤ count)
    (goes : ∀ later ∈ trail body count vars, ∀ rest, Stands later (item later :: rest) →
      rest ≠ [] → ∃ next, body later = .ok (.inl next)) :
    (trail body count vars).map item = items := by
  induction count generalizing vars items with
  | zero =>
    obtain ⟨rest, rfl, _⟩ := round vars items start
    exact absurd enough (Nat.not_succ_le_zero _)
  | succ count inductionHypothesis =>
    obtain ⟨rest, rfl, follows⟩ := round vars items start
    obtain ⟨next, went⟩ | ended := next_or_end body vars
    · rw [trail_succ_of_next count went] at goes ⊢
      rw [List.map_cons, inductionHypothesis (follows next went) (Nat.le_of_succ_le_succ enough)
        fun later member => goes later (List.mem_cons_of_mem _ member)]
    · have last : rest = [] := by
        by_contra more
        obtain ⟨next, went⟩ := goes vars List.mem_cons_self rest start more
        exact ended next went
      rw [trail_succ_of_end count ended, last]
      rfl

end

/-! ### Loops that never end -/

/-- The loop goes on for ever. -/
def Spins (timeout : Failure) (body : Vars → Except Failure (Vars ⊕ Result)) (vars : Vars) : Prop :=
  ∀ fuel, run timeout body fuel vars = .error timeout

section

variable {Position : Type*} {position : Vars → Position} {advance : Position → Position}
  {Stops : Position → Prop} {Invariant : Vars → Prop}

/-- A round stops or goes on as the position says, and moves to the next position. -/
def Follows (body : Vars → Except Failure (Vars ⊕ Result)) (position : Vars → Position)
    (advance : Position → Position) (Stops : Position → Prop) (Invariant : Vars → Prop)
    (vars : Vars) : Prop :=
  (Stops (position vars) ∧ ∃ result, body vars = .ok (.inr result)) ∨
    (¬ Stops (position vars) ∧ ∃ next, body vars = .ok (.inl next) ∧ Invariant next ∧
      position next = advance (position vars))

/-- A loop that comes to a position where it stops returns. -/
theorem returns_of_stops (round : ∀ vars, Invariant vars →
      Follows body position advance Stops Invariant vars)
    (count : Nat) {vars : Vars} (start : Invariant vars)
    (stops : Stops (advance^[count] (position vars))) :
    ∃ fuel result, run timeout body fuel vars = .ok result := by
  induction count generalizing vars with
  | zero =>
    obtain ⟨_, result, ended⟩ | ⟨goes, _⟩ := round vars start
    · exact ⟨1, result, by rw [run, ended]⟩
    · exact absurd stops goes
  | succ count inductionHypothesis =>
    obtain ⟨_, result, ended⟩ | ⟨_, next, went, kept, moved⟩ := round vars start
    · exact ⟨1, result, by rw [run, ended]⟩
    · rw [Function.iterate_succ_apply, ← moved] at stops
      obtain ⟨fuel, result, returned⟩ := inductionHypothesis kept stops
      exact ⟨fuel + 1, result, by rw [run, went]; exact returned⟩

/-- A loop goes on for ever exactly when it comes to no position where it stops. -/
theorem spins_iff (round : ∀ vars, Invariant vars →
      Follows body position advance Stops Invariant vars) {vars : Vars} (start : Invariant vars) :
    Spins timeout body vars ↔ ∀ count, ¬ Stops (advance^[count] (position vars)) := by
  constructor
  · intro spins count stops
    obtain ⟨fuel, result, returned⟩ : ∃ fuel result, run timeout body fuel vars = .ok result :=
      returns_of_stops round count start stops
    rw [spins fuel] at returned
    cases returned
  · intro never fuel
    induction fuel generalizing vars with
    | zero => rfl
    | succ fuel inductionHypothesis =>
      obtain ⟨stops, _⟩ | ⟨_, next, went, kept, moved⟩ := round vars start
      · exact absurd stops (never 0)
      · rw [run, went]
        refine inductionHypothesis kept fun count => ?_
        rw [moved, ← Function.iterate_succ_apply]
        exact never (count + 1)

end

/-! ### More rounds change nothing -/

/-- Once a computation has not run out of rounds, a larger bound gives the same. -/
def Stable (timeout : Failure) (compute : Nat → Except Failure Result) : Prop :=
  ∀ ⦃fuel more : Nat⦄, fuel ≤ more → compute fuel ≠ .error timeout → compute more = compute fuel

theorem stable_const (value : Except Failure Result) : Stable timeout fun _ => value :=
  fun _ _ _ _ => rfl

theorem stable_run (vars : Vars) : Stable timeout fun fuel => run timeout body fuel vars := by
  intro fuel more enough finished
  dsimp only at finished ⊢
  induction fuel generalizing more vars with
  | zero => exact absurd rfl finished
  | succ fuel inductionHypothesis =>
    obtain ⟨more, rfl⟩ : ∃ rest, more = rest + 1 := ⟨more - 1, by omega⟩
    rw [run_succ] at finished
    rw [run_succ, run_succ]
    cases round : body vars with
    | error failure => rfl
    | ok left =>
      rw [round] at finished
      cases left with
      | inl next => exact inductionHypothesis next (by omega) finished
      | inr result => rfl

/-- One stable computation after another is stable. -/
theorem Stable.bind {Middle : Type} {Last : Type} {first : Nat → Except Failure Middle}
    {rest : Nat → Middle → Except Failure Last} (firstStable : Stable timeout first)
    (restStable : ∀ middle, Stable timeout fun fuel => rest fuel middle) :
    Stable timeout fun fuel => first fuel >>= rest fuel := by
  intro fuel more enough finished
  dsimp only at finished ⊢
  have firstFinished : first fuel ≠ .error timeout := by
    intro out
    rw [out] at finished
    exact finished rfl
  rw [firstStable enough firstFinished]
  cases computed : first fuel with
  | error failure => rfl
  | ok middle =>
    rw [computed] at finished
    exact restStable middle enough finished

/-- A stable computation that returns for one bound returns the same for every other, or runs out
of rounds. -/
theorem Stable.eq_or_timeout {compute : Nat → Except Failure Result}
    (stable : Stable timeout compute) {enough : Nat} {result : Result}
    (returned : compute enough = .ok result) (fuel : Nat) :
    compute fuel = .ok result ∨ compute fuel = .error timeout := by
  by_cases finished : compute fuel = .error timeout
  · exact Or.inr finished
  · have more : compute enough ≠ .error timeout := by
      rw [returned]
      exact nofun
    left
    rw [← stable (Nat.le_max_left fuel enough) finished,
      stable (Nat.le_max_right fuel enough) more, returned]

/-- A stable computation has one result, whatever the bound. -/
theorem Stable.unique {compute : Nat → Except Failure Result} (stable : Stable timeout compute)
    {first second : Nat} {left right : Result} (leftReturned : compute first = .ok left)
    (rightReturned : compute second = .ok right) : left = right := by
  rcases stable.eq_or_timeout leftReturned second with same | out
  · exact Except.ok.inj (same.symm.trans rightReturned)
  · rw [rightReturned] at out
    cases out

end BoundedLoop
