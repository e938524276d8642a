/-
This file treats an array of which the first slots are in use, and the step of the
inside-out shuffle: the entry of one slot moves to the first unused slot, and a new entry
takes its place. Whatever slot is picked, the entries in use afterwards are those from
before and the new one, in some order.
-/

import Mathlib.Data.List.Perm.Basic
import Mathlib.Logic.Function.Basic

namespace Shuffle

variable {Entry : Type*}

/-- The entries of the slots in use. -/
def entries (array : Nat → Entry) (size : Nat) : List Entry := (List.range size).map array

/-- The array after one step of the shuffle. -/
def insert (array : Nat → Entry) (size place : Nat) (entry : Entry) : Nat → Entry :=
  Function.update (Function.update array size (array place)) place entry

variable (array : Nat → Entry) {size place : Nat} (entry : Entry)

@[simp]
theorem length_entries : (entries array size).length = size := by
  rw [entries, List.length_map, List.length_range]

@[simp]
theorem entries_zero : entries array 0 = [] := rfl

theorem entries_succ : entries array (size + 1) = entries array size ++ [array size] := by
  simp only [entries, List.range_succ, List.map_append, List.map_cons, List.map_nil]

theorem entries_update_of_le (unused : size ≤ place) :
    entries (Function.update array place entry) size = entries array size := by
  refine List.map_congr_left fun slot member => ?_
  rw [Function.update_of_ne (Nat.ne_of_lt (Nat.lt_of_lt_of_le (List.mem_range.mp member) unused))]

/-- Writing to a slot in use replaces its entry. -/
theorem entries_update :
    entries (Function.update array place entry) size = (entries array size).set place entry := by
  refine List.ext_getElem (by simp) fun slot _ _ => ?_
  simp only [entries, List.getElem_map, List.getElem_range, List.getElem_set, Function.update_apply,
    eq_comm (a := slot)]

/-- A step of the shuffle adds the new entry to the entries in use. -/
theorem entries_insert_perm (inside : place ≤ size) :
    (entries (insert array size place entry) (size + 1)).Perm (entry :: entries array size) := by
  rw [entries_succ, insert]
  rcases Nat.lt_or_eq_of_le inside with used | rfl
  · have bound : place < (entries array size).length := by rwa [length_entries]
    have moved : array place = (entries array size)[place] := by simp [entries]
    rw [entries_update, entries_update_of_le array _ (Nat.le_refl _),
      Function.update_of_ne (Nat.ne_of_gt used), Function.update_self, moved]
    calc (entries array size).set place entry ++ [(entries array size)[place]]
      _ |>.Perm (entry :: (entries array size).eraseIdx place ++ [(entries array size)[place]]) :=
        (List.set_perm_cons_eraseIdx bound entry).append_right _
      _ |>.Perm (entry :: entries array size) := by
        refine List.Perm.cons entry ((List.perm_append_singleton _ _).trans ?_)
        exact List.getElem_cons_eraseIdx_perm bound
  · rw [Function.update_eq_self, entries_update_of_le array _ (Nat.le_refl _), Function.update_self]
    exact List.perm_append_singleton _ _

end Shuffle
