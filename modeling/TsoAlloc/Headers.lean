/-
This file connects the list of regions to the bytes that hold it. `Listed` says that
following the `next` words from a head visits exactly the given regions and ends at
`NULL`, and that each region's `size` word holds its size. The headers of a layout
share no byte, so writing the header of a region leaves every other one alone; the two
edits the system calls make, linking a region and unlinking one, are the two edits of a
linked list.
-/

import TsoAlloc.Heap
import TsoAlloc.Library.LinkedSegment

namespace TsoAlloc

open Extents LinkedSegment

section

variable (platform : Platform)

/-- The `next` word of the header at an address. -/
def nextOf (memory : ByteMemory) (addr : Nat) : Nat := memory.load platform.wordBytes addr

/-- The `size` word of the header at an address. -/
def sizeOf (memory : ByteMemory) (addr : Nat) : Nat :=
  memory.load platform.wordBytes (sizeField platform addr)

/-- The memory after writing a header, `size` first, as `sys_tso_mm_alloc` does. -/
def writeHeader (memory : ByteMemory) (region : Region) (next : Nat) : ByteMemory :=
  (memory.store platform.wordBytes (sizeField platform region.addr) region.size).store
    platform.wordBytes region.addr next

/-- Two memories hold the same bytes in the header at an address. -/
def SameHeader (memory changed : ByteMemory) (addr : Nat) : Prop :=
  ∀ byte, addr ≤ byte → byte < addr + platform.headerSize → changed byte = memory byte

/-- Walking the headers in memory from `first` visits exactly `regions` and ends at `NULL`. -/
structure Listed (memory : ByteMemory) (first : Nat) (regions : List Region) : Prop where
  linked : Linked (nextOf platform memory) 0 first (regions.map Region.addr)
  sizes : ∀ region ∈ regions, sizeOf platform memory region.addr = region.size

instance (memory : ByteMemory) (first : Nat) (regions : List Region) :
    Decidable (Listed platform memory first regions) :=
  have : Decidable (Linked (nextOf platform memory) 0 first (regions.map Region.addr)) :=
    inferInstanceAs (Decidable (Segment _ _ _ _ _))
  decidable_of_iff (Linked (nextOf platform memory) 0 first (regions.map Region.addr) ∧
      ∀ region ∈ regions, sizeOf platform memory region.addr = region.size)
    ⟨fun both => ⟨both.1, both.2⟩, fun listed => ⟨listed.linked, listed.sizes⟩⟩

end

variable {platform : Platform} {memory changed : ByteMemory} {first : Nat}
  {regions : List Region}

theorem nextOf_lt (memory : ByteMemory) (addr : Nat) :
    nextOf platform memory addr < platform.modulus := ByteMemory.load_lt _ _ _

/-- In a header that does not wrap, `size` lies behind `next`. -/
theorem sizeField_eq {addr : Nat} (fits : addr + platform.headerSize ≤ platform.modulus) :
    sizeField platform addr = addr + platform.wordBytes := by
  have := platform.wordBytes_pos
  unfold Platform.headerSize at fits
  exact Platform.add_of_lt (by omega)

theorem nextOf_congr {addr : Nat} (same : SameHeader platform memory changed addr) :
    nextOf platform changed addr = nextOf platform memory addr :=
  ByteMemory.load_congr fun byte inside =>
    same byte inside.1 (by have := inside.2; unfold Platform.headerSize; omega)

theorem sizeOf_congr {addr : Nat} (fits : addr + platform.headerSize ≤ platform.modulus)
    (same : SameHeader platform memory changed addr) :
    sizeOf platform changed addr = sizeOf platform memory addr := by
  unfold sizeOf
  rw [sizeField_eq fits]
  refine ByteMemory.load_congr fun byte inside => ?_
  obtain ⟨low, high⟩ := inside
  exact same byte (by omega) (by unfold Platform.headerSize; omega)

theorem Listed.read (listed : Listed platform memory first regions) :
    (regions.map Region.addr).map (fun addr => ⟨addr, sizeOf platform memory addr⟩) = regions := by
  rw [List.map_map]
  have same : ∀ region ∈ regions,
      (⟨region.addr, sizeOf platform memory region.addr⟩ : Region) = region := by
    intro region member
    rw [listed.sizes region member]
  exact (List.map_congr_left same).trans (List.map_id regions)

/-- The headers in memory decide the list. -/
theorem Listed.unique {others : List Region} (listed : Listed platform memory first regions)
    (other : Listed platform memory first others) : regions = others := by
  rw [← listed.read, ← other.read, listed.linked.unique other.linked]

/-- The list reads no byte outside its headers. -/
theorem Listed.transport (listed : Listed platform memory first regions)
    (fits : ∀ region ∈ regions, region.addr + platform.headerSize ≤ platform.modulus)
    (same : ∀ region ∈ regions, SameHeader platform memory changed region.addr) :
    Listed platform changed first regions where
  linked := listed.linked.transport fun addr member => by
    obtain ⟨region, regionMember, rfl⟩ := List.mem_map.mp member
    exact nextOf_congr (same region regionMember)
  sizes := by
    intro region member
    rw [sizeOf_congr (fits region member) (same region member), listed.sizes region member]

/-- The first region of a list is where the list begins, and the rest is listed behind it. -/
theorem listed_cons {region : Region} {rest : List Region} :
    Listed platform memory first (region :: rest) ↔
      first = region.addr ∧ region.addr ≠ 0 ∧ sizeOf platform memory region.addr = region.size ∧
        Listed platform memory (nextOf platform memory region.addr) rest := by
  constructor
  · intro listed
    obtain ⟨here, valid, tail⟩ := linked_cons.mp listed.linked
    exact ⟨here, valid, listed.sizes region List.mem_cons_self, tail,
      fun other member => listed.sizes other (List.mem_cons_of_mem _ member)⟩
  · rintro ⟨here, valid, size, tail⟩
    refine ⟨linked_cons.mpr ⟨here, valid, tail.linked⟩, ?_⟩
    intro other member
    rcases List.mem_cons.mp member with rfl | member
    · exact size
    · exact tail.sizes other member

theorem listed_nil : Listed platform memory first [] ↔ first = 0 := by
  constructor
  · exact fun listed => listed.linked
  · intro none
    exact ⟨none, fun region member => by cases member⟩

theorem Listed.first_eq_zero (listed : Listed platform memory first regions) :
    first = 0 ↔ regions = [] := by
  rw [listed.linked.head_eq_null, List.map_eq_nil_iff]

/-! ### Writing a header -/

theorem nextOf_writeHeader {region : Region} {next : Nat} (word : next < platform.modulus) :
    nextOf platform (writeHeader platform memory region next) region.addr = next := by
  rw [nextOf, writeHeader, ByteMemory.load_store_self]
  exact Nat.mod_eq_of_lt word

theorem sizeOf_writeHeader {region : Region} {next : Nat}
    (fits : region.addr + platform.headerSize ≤ platform.modulus)
    (word : region.size < platform.modulus) :
    sizeOf platform (writeHeader platform memory region next) region.addr = region.size := by
  rw [sizeOf, writeHeader, sizeField_eq fits, ByteMemory.load_store_of_disjoint (Or.inr le_rfl),
    ByteMemory.load_store_self]
  exact Nat.mod_eq_of_lt word

/-- Writing a header changes only its own bytes. -/
theorem writeHeader_of_outside {region : Region} {next byte : Nat}
    (fits : region.addr + platform.headerSize ≤ platform.modulus)
    (outside : byte < region.addr ∨ region.addr + platform.headerSize ≤ byte) :
    writeHeader platform memory region next byte = memory byte := by
  unfold Platform.headerSize at outside
  rw [writeHeader, sizeField_eq fits, ByteMemory.store_of_notInWord, ByteMemory.store_of_notInWord]
  · rintro ⟨low, high⟩
    omega
  · rintro ⟨low, high⟩
    omega

theorem nextOf_store {addr next : Nat} (word : next < platform.modulus) :
    nextOf platform (memory.store platform.wordBytes addr next) addr = next := by
  rw [nextOf, ByteMemory.load_store_self]
  exact Nat.mod_eq_of_lt word

theorem sizeOf_store {addr next : Nat}
    (fits : addr + platform.headerSize ≤ platform.modulus) :
    sizeOf platform (memory.store platform.wordBytes addr next) addr =
      sizeOf platform memory addr := by
  unfold sizeOf
  rw [sizeField_eq fits]
  exact ByteMemory.load_store_of_disjoint (Or.inr le_rfl)

theorem store_of_outside {addr next byte : Nat}
    (outside : byte < addr ∨ addr + platform.headerSize ≤ byte) :
    memory.store platform.wordBytes addr next byte = memory byte := by
  unfold Platform.headerSize at outside
  refine ByteMemory.store_of_notInWord ?_
  rintro ⟨low, high⟩
  omega

/-! ### Linking and unlinking -/

theorem Layout.headers_disjoint (layout : Layout platform) {front back : List Region}
    {region other : Region} (split : layout.regions = front ++ region :: back)
    (member : other ∈ front ++ back) :
    other.top platform ≤ region.addr ∨ region.top platform ≤ other.addr := by
  have ordered := layout.packed.pairwise
  rw [split, List.pairwise_append, List.pairwise_cons] at ordered
  obtain ⟨_, ⟨behind, _⟩, before⟩ := ordered
  rcases List.mem_append.mp member with member | member
  · exact Or.inl (before other member region List.mem_cons_self)
  · exact Or.inr (behind other member)

theorem Layout.sameHeader (layout : Layout platform) {front back : List Region}
    {region other : Region} (split : layout.regions = front ++ region :: back)
    (member : other ∈ front ++ back)
    (frame : ∀ byte, byte < region.addr ∨ region.addr + platform.headerSize ≤ byte →
      changed byte = memory byte) : SameHeader platform memory changed other.addr := by
  intro byte low high
  refine frame byte ?_
  have regionTop := region.payload_le_top platform
  have otherTop := other.payload_le_top platform
  unfold Region.payload at regionTop otherTop
  rcases layout.headers_disjoint split member with below | above
  · exact Or.inl (by omega)
  · exact Or.inr (by omega)

theorem Layout.addr_ne_zero (layout : Layout platform) {region : Region}
    (member : region ∈ layout.regions) : region.addr ≠ 0 := by
  have := (layout.within member).1
  have := layout.start_pos
  omega

theorem Layout.header_fits (layout : Layout platform) {region : Region}
    (member : region ∈ layout.regions) :
    region.addr + platform.headerSize ≤ platform.modulus := by
  have inside := (layout.within member).2
  have behind := region.payload_le_top platform
  have fits := layout.fits
  unfold Region.payload at behind
  unfold stop at inside
  omega

/-- A region written before the head of the list becomes its head. -/
theorem Layout.listed_push (layout : Layout platform) {region : Region} {rest : List Region}
    (split : layout.regions = region :: rest) (listed : Listed platform memory first rest)
    (size : region.size < platform.modulus) (head : first < platform.modulus) :
    Listed platform (writeHeader platform memory region first) region.addr layout.regions := by
  have member : region ∈ layout.regions := by rw [split]; exact List.mem_cons_self
  have atHead : layout.regions = [] ++ region :: rest := split
  rw [split]
  have fits := layout.header_fits member
  refine listed_cons.mpr ⟨rfl, layout.addr_ne_zero member, sizeOf_writeHeader fits size, ?_⟩
  rw [nextOf_writeHeader head]
  have restFits : ∀ other ∈ rest, other.addr + platform.headerSize ≤ platform.modulus :=
    fun other otherMember => layout.header_fits (split ▸ List.mem_cons_of_mem _ otherMember)
  exact listed.transport restFits fun other otherMember => layout.sameHeader atHead otherMember
    fun byte outside => writeHeader_of_outside fits outside

/-- A region written behind another one, which then links to it, is put into the list there. -/
theorem Layout.listed_insert (layout : Layout platform) {front back : List Region}
    {behind region : Region} (split : layout.regions = front ++ behind :: region :: back)
    (listed : Listed platform memory first (front ++ behind :: back))
    (size : region.size < platform.modulus) (addr : region.addr < platform.modulus) :
    Listed platform
      ((writeHeader platform memory region (nextOf platform memory behind.addr)).store
        platform.wordBytes behind.addr region.addr) first layout.regions := by
  have splitRegion : layout.regions = (front ++ [behind]) ++ region :: back := by
    rw [split, List.append_assoc, List.singleton_append]
  have member : region ∈ layout.regions := by
    rw [splitRegion]
    exact List.mem_append_cons_self
  have written (other : Region) (otherMember : other ∈ front ++ [behind] ++ back) :
      SameHeader platform memory
        (writeHeader platform memory region (nextOf platform memory behind.addr)) other.addr :=
    layout.sameHeader splitRegion otherMember fun byte outside =>
      writeHeader_of_outside (layout.header_fits member) outside
  have linked (other : Region) (otherMember : other ∈ front ++ region :: back) :
      SameHeader platform
        (writeHeader platform memory region (nextOf platform memory behind.addr))
        ((writeHeader platform memory region (nextOf platform memory behind.addr)).store
          platform.wordBytes behind.addr region.addr) other.addr :=
    layout.sameHeader split otherMember fun byte outside => store_of_outside outside
  have kept (other : Region) (otherMember : other ∈ front ++ back) :
      SameHeader platform memory
        ((writeHeader platform memory region (nextOf platform memory behind.addr)).store
          platform.wordBytes behind.addr region.addr) other.addr := by
    intro byte low high
    rw [linked other (by simp only [List.mem_append, List.mem_cons] at otherMember ⊢; tauto)
        byte low high,
      written other (by simp only [List.mem_append] at otherMember ⊢; tauto) byte low high]
  have ofAddr {others : List Region} (inside : others ⊆ front ++ back) :
      ∀ other ∈ others.map Region.addr, nextOf platform
        ((writeHeader platform memory region (nextOf platform memory behind.addr)).store
          platform.wordBytes behind.addr region.addr) other = nextOf platform memory other := by
    intro other otherMember
    obtain ⟨source, sourceMember, rfl⟩ := List.mem_map.mp otherMember
    exact nextOf_congr (kept source (inside sourceMember))
  have walk := listed.linked
  rw [List.map_append, List.map_cons] at walk
  refine ⟨?_, ?_⟩
  · rw [split, List.map_append, List.map_cons, List.map_cons]
    refine walk.insert (layout.addr_ne_zero member) ?_ (nextOf_store addr)
      (ofAddr (List.subset_append_left _ _)) (ofAddr (List.subset_append_right _ _))
    rw [nextOf_congr (linked region (List.mem_append_right _ List.mem_cons_self)),
      nextOf_writeHeader (nextOf_lt _ _)]
  · intro other otherMember
    have fits := layout.header_fits otherMember
    rw [split] at otherMember
    by_cases same : other = region
    · subst same
      rw [sizeOf_congr fits (linked other (List.mem_append_right _ List.mem_cons_self)),
        sizeOf_writeHeader fits size]
    by_cases last : other = behind
    · subst last
      rw [sizeOf_store fits, sizeOf_congr fits (written other (by simp)),
        listed.sizes other (by simp)]
    · have rest : other ∈ front ++ back := by
        simp only [List.mem_append, List.mem_cons] at otherMember ⊢
        tauto
      rw [sizeOf_congr fits (kept other rest), listed.sizes other (by
        simp only [List.mem_append, List.mem_cons] at rest ⊢
        tauto)]

/-- A region behind another one, which takes over its link, is taken out of the list. -/
theorem Layout.listed_remove (layout : Layout platform) {front back : List Region}
    {behind region : Region} (split : layout.regions = front ++ behind :: region :: back)
    (listed : Listed platform memory first layout.regions) :
    Listed platform
      (memory.store platform.wordBytes behind.addr (nextOf platform memory region.addr)) first
      (front ++ behind :: back) := by
  have kept (other : Region) (otherMember : other ∈ front ++ region :: back) :
      SameHeader platform memory
        (memory.store platform.wordBytes behind.addr (nextOf platform memory region.addr))
        other.addr :=
    layout.sameHeader split otherMember fun byte outside => store_of_outside outside
  have ofAddr {others : List Region} (inside : others ⊆ front ++ region :: back) :
      ∀ other ∈ others.map Region.addr, nextOf platform
        (memory.store platform.wordBytes behind.addr (nextOf platform memory region.addr)) other =
          nextOf platform memory other := by
    intro other otherMember
    obtain ⟨source, sourceMember, rfl⟩ := List.mem_map.mp otherMember
    exact nextOf_congr (kept source (inside sourceMember))
  have walk := listed.linked
  rw [split, List.map_append, List.map_cons, List.map_cons] at walk
  refine ⟨?_, ?_⟩
  · rw [List.map_append, List.map_cons]
    exact walk.remove (nextOf_store (nextOf_lt _ _)) (ofAddr (List.subset_append_left _ _))
      (ofAddr fun other member => List.mem_append_right _ (List.mem_cons_of_mem _ member))
  · intro other otherMember
    have member : other ∈ layout.regions := by
      rw [split]
      simp only [List.mem_append, List.mem_cons] at otherMember ⊢
      tauto
    have fits := layout.header_fits member
    have listedSize : sizeOf platform memory other.addr = other.size := listed.sizes other member
    by_cases last : other = behind
    · subst last
      rw [sizeOf_store fits, listedSize]
    · have rest : other ∈ front ++ region :: back := by
        simp only [List.mem_append, List.mem_cons] at otherMember ⊢
        tauto
      rw [sizeOf_congr fits (kept other rest), listedSize]

end TsoAlloc
