/-
This file fixes what the allocator takes from its platform: the width of a machine
word and of a pointer, the page size, and arithmetic on `unsigned long`, which is
modulo `2 ^ w`. The results hold on every platform whose words can count past the
size of one mapping; the repository builds for i386.
-/

import Mathlib.Algebra.Group.Nat.Defs
import Mathlib.Data.Nat.Basic

namespace TsoAlloc

/-- A platform: the bytes of a word and of a page. -/
structure Platform where
  wordBytes : Nat
  pageSize : Nat
  wordBytes_pos : 0 < wordBytes
  wordBytes_le_pageSize : wordBytes ≤ pageSize
  mapping_fits : 8 * pageSize + 1 < 256 ^ wordBytes

namespace Platform

/-- The platform of the repository: 32-bit words and pages of 4096 bytes. -/
def i386 : Platform where
  wordBytes := 4
  pageSize := 4096
  wordBytes_pos := by decide
  wordBytes_le_pageSize := by decide
  mapping_fits := by decide

variable (platform : Platform)

/-- The number of values of a word, `2 ^ w`. -/
def modulus : Nat := 256 ^ platform.wordBytes

/-- `sizeof(struct tso_mm_region)`: a pointer and an `unsigned long`. -/
def headerSize : Nat := platform.wordBytes + platform.wordBytes

/-- `INITIAL_SIZE` -/
def initialSize : Nat := 8 * platform.pageSize

/-- Addition of `unsigned long`. -/
def add (left right : Nat) : Nat := (left + right) % platform.modulus

/-- Subtraction of `unsigned long`. -/
def sub (left right : Nat) : Nat := (left + (platform.modulus - right)) % platform.modulus

theorem headerSize_pos : 0 < platform.headerSize := by
  have := platform.wordBytes_pos
  unfold headerSize
  omega

theorem two_headers_lt_initialSize : 2 * platform.headerSize < platform.initialSize := by
  have := platform.wordBytes_pos
  have := platform.wordBytes_le_pageSize
  unfold headerSize initialSize
  omega

theorem initialSize_lt_modulus : platform.initialSize + 1 < platform.modulus :=
  platform.mapping_fits

variable {platform}

/-- Addition is exact when the sum is a word. -/
theorem add_of_lt {left right : Nat} (fits : left + right < platform.modulus) :
    platform.add left right = left + right := Nat.mod_eq_of_lt fits

theorem sub_of_le {left right : Nat} (ordered : right ≤ left) (fits : left < platform.modulus) :
    platform.sub left right = left - right := by
  have wrapped : left + (platform.modulus - right) = left - right + platform.modulus := by omega
  rw [sub, wrapped, Nat.add_mod_right, Nat.mod_eq_of_lt (by omega)]

/-- The distance below the end of an interval is exact even when the end is `2 ^ w`, which
wraps to zero. -/
theorem sub_add_of_le {start size low : Nat} (low_pos : 0 < low) (ordered : low ≤ start + size)
    (fits : start + size ≤ platform.modulus) :
    platform.sub (platform.add start size) low = start + size - low := by
  rcases Nat.lt_or_eq_of_le fits with short | full
  · rw [add_of_lt short, sub_of_le ordered short]
  · rw [add, full, Nat.mod_self, sub, Nat.zero_add, Nat.mod_eq_of_lt (by omega)]

end Platform

end TsoAlloc
