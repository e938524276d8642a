/-
This file builds little-endian words on a memory of bytes. A word of a given
width is the bytes at consecutive addresses, low byte first. The facts a user
needs are the round trip of a word and the two frames: a store changes no byte
outside its word, and a load reads no byte outside its word.
-/

import Mathlib.Logic.Function.Basic
import Mathlib.Tactic.Ring

/-- A memory of bytes. -/
abbrev ByteMemory := Nat → UInt8

namespace ByteMemory

/-- The word of `width` bytes at an address. -/
def load (width : Nat) (memory : ByteMemory) (address : Nat) : Nat :=
  match width with
  | 0 => 0
  | width + 1 => (memory address).toNat + 256 * load width memory (address + 1)

/-- The memory after writing the low `width` bytes of a value at an address. -/
def store (width : Nat) (memory : ByteMemory) (address value : Nat) : ByteMemory :=
  match width with
  | 0 => memory
  | width + 1 =>
    store width (Function.update memory address (UInt8.ofNat value)) (address + 1) (value / 256)

/-- An address lies in the word of `width` bytes at `start`. -/
def InWord (width start address : Nat) : Prop := start ≤ address ∧ address < start + width

theorem load_lt (width : Nat) (memory : ByteMemory) (address : Nat) :
    load width memory address < 256 ^ width := by
  induction width generalizing address with
  | zero => exact Nat.one_pos
  | succ width inductionHypothesis =>
    have low : (memory address).toNat < 256 := (memory address).toNat_lt
    have high := inductionHypothesis (address + 1)
    rw [load, Nat.pow_succ]
    omega

/-- A load reads no byte outside its word. -/
theorem load_congr {width : Nat} {first second : ByteMemory} {address : Nat}
    (agree : ∀ byte, InWord width address byte → first byte = second byte) :
    load width first address = load width second address := by
  induction width generalizing address with
  | zero => rfl
  | succ width inductionHypothesis =>
    have low := agree address ⟨le_rfl, by omega⟩
    have high : load width first (address + 1) = load width second (address + 1) :=
      inductionHypothesis fun byte inside =>
        agree byte ⟨by have := inside.1; omega, by have := inside.2; omega⟩
    rw [load, load, low, high]

/-- A store changes no byte outside its word. -/
theorem store_of_notInWord {width : Nat} {memory : ByteMemory} {address value byte : Nat}
    (outside : ¬ InWord width address byte) :
    store width memory address value byte = memory byte := by
  induction width generalizing memory address value with
  | zero => rfl
  | succ width inductionHypothesis =>
    have other : byte ≠ address := fun same => outside ⟨by omega, by omega⟩
    rw [store, inductionHypothesis fun inside =>
      outside ⟨by have := inside.1; omega, by have := inside.2; omega⟩,
      Function.update_of_ne other]

/-- A word reads back as the value stored, cut to the width. -/
theorem load_store_self (width : Nat) (memory : ByteMemory) (address value : Nat) :
    load width (store width memory address value) address = value % 256 ^ width := by
  induction width generalizing memory address value with
  | zero => rw [load, Nat.pow_zero, Nat.mod_one]
  | succ width inductionHypothesis =>
    have low : store (width + 1) memory address value address = UInt8.ofNat value := by
      rw [store, store_of_notInWord fun inside => by have := inside.1; omega,
        Function.update_self]
    have byte : (UInt8.ofNat value).toNat = value % 256 := by simp
    rw [load, low, byte, store, inductionHypothesis, Nat.pow_succ', Nat.mod_mul]

theorem load_store_of_disjoint {width other : Nat} {memory : ByteMemory}
    {address target value : Nat}
    (disjoint : address + other ≤ target ∨ target + width ≤ address) :
    load other (store width memory target value) address = load other memory address :=
  load_congr fun byte inside => store_of_notInWord fun hit => by
    have := inside.1; have := inside.2; have := hit.1; have := hit.2
    omega

end ByteMemory
