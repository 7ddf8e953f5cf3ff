import Datashil.Proofs.LeafSearch

/-! What a leaf page stores, and the layout that makes its space accounting
right. The contents of a page are the raw bytes of its live tuples in slot order;
every operation is described by what it does to that list. -/

namespace Datashil.LeafPage
open Library

/-! ### Contents -/

/-- The raw bytes, header first, of the live tuples of a slot directory. -/
def tuplesOf (slots : List SlotArrayElement) (bytes : Memory Byte) : List (List Byte) :=
  (slots.filter fun element => !element.isDeleted).map fun element => bytes.read element.offset element.length

def tuples (page : LeafPage) : List (List Byte) := tuplesOf page.slotArray page.bytes

/-- The key of a raw tuple: the eight bytes after its header. -/
def keyOf (tuple : List Byte) : Nat := LittleEndian.decode ((tuple.drop TUPLE_HEADER_SIZE).take SIZEOF_KEY)

def liveBytes (slots : List SlotArrayElement) : Nat :=
  (slots.map fun element => if element.isDeleted then 0 else element.length).sum

def deadBytes (slots : List SlotArrayElement) : Nat :=
  (slots.map fun element => if element.isDeleted then element.length else 0).sum

variable {slots first second : List SlotArrayElement} {bytes other : Memory Byte} {element : SlotArrayElement}

@[simp] theorem tuplesOf_nil : tuplesOf [] bytes = [] := rfl

@[simp] theorem tuplesOf_append :
    tuplesOf (first ++ second) bytes = tuplesOf first bytes ++ tuplesOf second bytes := by
  simp [tuplesOf]

theorem tuplesOf_cons_dead (dead : element.isDeleted = true) :
    tuplesOf (element :: slots) bytes = tuplesOf slots bytes := by simp [tuplesOf, dead]

theorem tuplesOf_cons_live (live : element.isDeleted = false) :
    tuplesOf (element :: slots) bytes = bytes.read element.offset element.length :: tuplesOf slots bytes := by
  simp [tuplesOf, live]

theorem tuplesOf_congr (same : ∀ element ∈ slots, element.isDeleted = false →
      other.read element.offset element.length = bytes.read element.offset element.length) :
    tuplesOf slots other = tuplesOf slots bytes := by
  apply List.map_congr_left
  intro element member
  obtain ⟨inside, live⟩ := List.mem_filter.mp member
  exact same element inside (by simpa using live)

theorem mem_tuplesOf {tuple : List Byte} :
    tuple ∈ tuplesOf slots bytes ↔
      ∃ element ∈ slots, element.isDeleted = false ∧ bytes.read element.offset element.length = tuple := by
  simp [tuplesOf, and_assoc]

@[simp] theorem liveBytes_nil : liveBytes [] = 0 := rfl
@[simp] theorem deadBytes_nil : deadBytes [] = 0 := rfl

@[simp] theorem liveBytes_append : liveBytes (first ++ second) = liveBytes first + liveBytes second := by
  simp [liveBytes]

@[simp] theorem deadBytes_append : deadBytes (first ++ second) = deadBytes first + deadBytes second := by
  simp [deadBytes]

@[simp] theorem liveBytes_cons : liveBytes (element :: slots) =
    (if element.isDeleted then 0 else element.length) + liveBytes slots := by simp [liveBytes]

@[simp] theorem deadBytes_cons : deadBytes (element :: slots) =
    (if element.isDeleted then element.length else 0) + deadBytes slots := by simp [deadBytes]

@[simp] theorem liveBytes_reverse : liveBytes slots.reverse = liveBytes slots := by
  simp [liveBytes, List.sum_reverse]

theorem sum_tuplesOf (slots : List SlotArrayElement) (bytes : Memory Byte) :
    ((tuplesOf slots bytes).map List.length).sum = liveBytes slots := by
  induction slots with
  | nil => rfl
  | cons element slots ih =>
    cases live : element.isDeleted with
    | true => simp [tuplesOf_cons_dead live, live, ih]
    | false => simp [tuplesOf_cons_live live, live, ih]

/-! ### Lengths -/

/-- What `writeChunkLeaf` stores of a buffer that starts with a key. -/
def FitLengths (slots : List SlotArrayElement) : Prop :=
  ∀ element ∈ slots, TUPLE_HEADER_SIZE + SIZEOF_KEY ≤ element.length ∧
    element.length ≤ MAX_LEAF_PAGE_DATA - SLOT_SIZE

@[simp] theorem fitLengths_append : FitLengths (first ++ second) ↔ FitLengths first ∧ FitLengths second := by
  simp only [FitLengths, List.mem_append]
  exact ⟨fun fits => ⟨fun element member => fits element (.inl member), fun element member =>
    fits element (.inr member)⟩,
    fun fits element member => member.elim (fits.1 element) (fits.2 element)⟩

@[simp] theorem fitLengths_cons : FitLengths (element :: slots) ↔
    (TUPLE_HEADER_SIZE + SIZEOF_KEY ≤ element.length ∧ element.length ≤ MAX_LEAF_PAGE_DATA - SLOT_SIZE) ∧
      FitLengths slots := by
  simp [FitLengths]

theorem FitLengths.total (fits : FitLengths slots) :
    21 * slots.length ≤ liveBytes slots + deadBytes slots := by
  induction slots with
  | nil => simp
  | cons element slots ih =>
    rw [fitLengths_cons] at fits
    have rest := ih fits.2
    have least : 21 ≤ element.length := fits.1.1
    cases live : element.isDeleted <;> simp [live] <;> omega

theorem getKey_eq_keyOf {bytes : Memory Byte} (fits : TUPLE_HEADER_SIZE + SIZEOF_KEY ≤ element.length) :
    getKeyFromSlotElement bytes element = keyOf (bytes.read element.offset element.length) := by
  simp only [getKeyFromSlotElement, keyOf, TUPLE_HEADER_SIZE, SIZEOF_KEY] at fits ⊢
  rw [Memory.drop_read _ _ _ _ (by omega), Memory.take_read _ _ _ _ (by omega)]

theorem sortedSlots_iff (fits : FitLengths slots) :
    SortedSlots slots bytes ↔ ((tuplesOf slots bytes).map keyOf).Pairwise (· ≤ ·) := by
  simp only [SortedSlots, tuplesOf, List.map_map, List.pairwise_map, List.pairwise_filter,
    Function.comp_apply]
  constructor <;> intro sorted <;>
    apply List.Pairwise.imp_of_mem _ sorted <;> intro a b inA inB ordered liveA liveB
  · simp only [Bool.not_eq_eq_eq_not, Bool.not_true] at liveA liveB
    rw [← getKey_eq_keyOf (fits a inA).1, ← getKey_eq_keyOf (fits b inB).1]
    exact ordered liveA liveB
  · rw [getKey_eq_keyOf (fits a inA).1, getKey_eq_keyOf (fits b inB).1]
    exact ordered (by simp [liveA]) (by simp [liveB])

/-! ### Layout -/

def Apart (first second : SlotArrayElement) : Prop :=
  first.offset + first.length ≤ second.offset ∨ second.offset + second.length ≤ first.offset

/-- Live tuples lie above the free space, within the page, and apart. -/
structure Placed (slots : List SlotArrayElement) (freeSpaceEndOffset : Nat) : Prop where
  extent : ∀ element ∈ slots, element.isDeleted = false →
    freeSpaceEndOffset < element.offset ∧ element.offset + element.length ≤ PAGE_SIZE
  apart : slots.Pairwise fun first second => first.isDeleted = false → second.isDeleted = false →
    Apart first second

/-- The representation invariant of leaf pages. Free bytes, garbage and live tuples make up the
page; all tests for room are about these sums, and where the tuples lie has to be known besides. -/
structure Valid (page : LeafPage) : Prop where
  directory : LEAF_PAGE_HEADER_SIZE + page.slotArray.length * SLOT_SIZE ≤ page.freeSpaceEndOffset + 1
  lengths : FitLengths page.slotArray
  placed : Placed page.slotArray page.freeSpaceEndOffset
  accounting : liveBytes page.slotArray + page.garbageBytes + page.freeSpaceEndOffset = PAGE_SIZE - 1
  garbage : deadBytes page.slotArray ≤ page.garbageBytes
  sorted : SortedSlots page.slotArray page.bytes

section Decidable

instance (slots : List SlotArrayElement) : Decidable (FitLengths slots) :=
  inferInstanceAs (Decidable (∀ element ∈ slots, _))

instance (first second : SlotArrayElement) : Decidable (Apart first second) :=
  inferInstanceAs (Decidable (_ ∨ _))

instance (slots : List SlotArrayElement) (freeSpaceEndOffset : Nat) :
    Decidable (Placed slots freeSpaceEndOffset) :=
  decidable_of_iff
    ((∀ element ∈ slots, element.isDeleted = false →
        freeSpaceEndOffset < element.offset ∧ element.offset + element.length ≤ PAGE_SIZE) ∧
      slots.Pairwise fun first second => first.isDeleted = false → second.isDeleted = false →
        Apart first second)
    ⟨fun placed => ⟨placed.1, placed.2⟩, fun placed => ⟨placed.extent, placed.apart⟩⟩

instance (slots : List SlotArrayElement) (bytes : Memory Byte) : Decidable (SortedSlots slots bytes) :=
  inferInstanceAs (Decidable (slots.Pairwise fun first second => first.isDeleted = false →
    second.isDeleted = false →
    getKeyFromSlotElement bytes first ≤ getKeyFromSlotElement bytes second))

instance (page : LeafPage) : Decidable page.Valid :=
  decidable_of_iff
    (LEAF_PAGE_HEADER_SIZE + page.slotArray.length * SLOT_SIZE ≤ page.freeSpaceEndOffset + 1 ∧
      FitLengths page.slotArray ∧ Placed page.slotArray page.freeSpaceEndOffset ∧
      liveBytes page.slotArray + page.garbageBytes + page.freeSpaceEndOffset = PAGE_SIZE - 1 ∧
      deadBytes page.slotArray ≤ page.garbageBytes ∧ SortedSlots page.slotArray page.bytes)
    ⟨fun ⟨directory, lengths, placed, accounting, garbage, sorted⟩ =>
      ⟨directory, lengths, placed, accounting, garbage, sorted⟩,
     fun valid => ⟨valid.directory, valid.lengths, valid.placed, valid.accounting, valid.garbage,
       valid.sorted⟩⟩

end Decidable

/-- Live bytes and all slots, deleted ones included. -/
def used (page : LeafPage) : Nat := liveBytes page.slotArray + page.slotArray.length * SLOT_SIZE

namespace Valid
variable {page : LeafPage}

theorem slots_le (valid : page.Valid) : page.slotArray.length ≤ 156 := by
  have total := valid.lengths.total
  have directory := valid.directory
  have accounting := valid.accounting
  have garbage := valid.garbage
  simp only [LEAF_PAGE_HEADER_SIZE, SLOT_SIZE, PAGE_SIZE] at directory accounting
  omega

theorem availableSpace (valid : page.Valid) :
    page.checkAvailableSpace + LEAF_PAGE_HEADER_SIZE + page.slotArray.length * SLOT_SIZE =
      page.freeSpaceEndOffset + 1 := by
  have directory := valid.directory
  have accounting := valid.accounting
  simp only [LEAF_PAGE_HEADER_SIZE, SLOT_SIZE, PAGE_SIZE, checkAvailableSpace] at directory accounting ⊢
  rw [u16_eq
    (show _ = ((page.freeSpaceEndOffset + 1 - (31 + page.slotArray.length * 5) : Nat) : Int) by omega)
    (by omega)]
  omega

/-- Free space, contiguous or not, and used space make up the page. -/
theorem totalSpace (valid : page.Valid) :
    page.checkAvailableSpace + page.checkGarbageBytes + page.used = PAGE_SIZE - LEAF_PAGE_HEADER_SIZE := by
  have available := valid.availableSpace
  have accounting := valid.accounting
  simp only [LEAF_PAGE_HEADER_SIZE, SLOT_SIZE, PAGE_SIZE, used, checkGarbageBytes] at available accounting ⊢
  omega

theorem usedSpace (valid : page.Valid) : page.usedSpace = page.used := by
  have total := valid.totalSpace
  simp only [LEAF_PAGE_HEADER_SIZE, PAGE_SIZE, LeafPage.usedSpace] at total ⊢
  exact u16_eq (by omega) (by omega)

theorem used_le (valid : page.Valid) : page.used ≤ PAGE_SIZE - LEAF_PAGE_HEADER_SIZE := by
  have := valid.totalSpace
  omega

theorem totalSpace_u16 (valid : page.Valid) :
    u16 (page.checkAvailableSpace + page.checkGarbageBytes) = page.checkAvailableSpace +
      page.checkGarbageBytes := by
  have total := valid.totalSpace
  simp only [LEAF_PAGE_HEADER_SIZE, PAGE_SIZE] at total
  exact u16_eq (by omega) (by omega)

theorem keys_sorted (valid : page.Valid) : (page.tuples.map keyOf).Pairwise (· ≤ ·) :=
  (sortedSlots_iff valid.lengths).mp valid.sorted

theorem length_tuple (valid : page.Valid) {tuple : List Byte} (member : tuple ∈ page.tuples) :
    TUPLE_HEADER_SIZE + SIZEOF_KEY ≤ tuple.length ∧ tuple.length ≤ MAX_LEAF_PAGE_DATA - SLOT_SIZE := by
  obtain ⟨element, inside, _, rfl⟩ := mem_tuplesOf.mp member
  simpa using valid.lengths element inside

end Valid
end Datashil.LeafPage
