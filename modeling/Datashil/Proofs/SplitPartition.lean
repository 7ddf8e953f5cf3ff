import Datashil.Proofs.LeafSplit

/-! A leaf split as a partition of the page that `FindPageToWrite` finds too full. -/

namespace Datashil.LeafPage
open Library
variable {page : LeafPage}

def minEntry (bufferSize : Nat) : Nat := min MIN_LEAF_PAGE_DATA (SLOT_SIZE + TUPLE_HEADER_SIZE + bufferSize)

/-- The space of a page as `FindPageToWrite` adds it up. -/
def entrySpace (page : LeafPage) : Nat := u16 (page.checkAvailableSpace + page.checkGarbageBytes)

theorem Valid.crowded_of_minEntry (valid : page.Valid) {bufferSize : Nat}
    (full : page.entrySpace < minEntry bufferSize) : page.Crowded := by
  have space : page.entrySpace = page.checkAvailableSpace + page.checkGarbageBytes := valid.totalSpace_u16
  rw [Crowded, ← space]
  exact Nat.lt_of_lt_of_le full (Nat.min_le_left _ _)

theorem Made.entrySpace_ge {tuples : List (List Byte)} (made : Made page tuples)
    (room : MIN_LEAF_PAGE_DATA ≤ page.checkAvailableSpace + page.checkGarbageBytes) (bufferSize : Nat) :
    minEntry bufferSize ≤ page.entrySpace := by
  have space : page.entrySpace = page.checkAvailableSpace + page.checkGarbageBytes :=
    made.valid.totalSpace_u16
  rw [space]
  exact Nat.le_trans (Nat.min_le_left _ _) room

/-- Wherever `FindPageToWrite` decides to split, both pages get live tuples, none is lost or
changed, the boundary is the least key of the new page, and either page then has room for the entry. -/
theorem leaf_split_partition (page : LeafPage) (valid : page.Valid) (bufferSize : Nat)
    (full : page.entrySpace < minEntry bufferSize) (newBytes : Memory Byte) (newPid : Nat) :
    ∃ left right boundaryKey, page.handleSplit newBytes newPid = (left, some right, boundaryKey) ∧
      left.tuples ≠ [] ∧ right.tuples ≠ [] ∧ left.tuples ++ right.tuples = page.tuples ∧
      ((∃ tuple ∈ right.tuples, keyOf tuple = boundaryKey) ∧ ∀ tuple ∈ right.tuples,
        boundaryKey ≤ keyOf tuple) ∧
      ∀ key, let target := if key ≥ boundaryKey then right else left
        minEntry bufferSize ≤ target.entrySpace ∧
          SLOT_SIZE + TUPLE_HEADER_SIZE < target.checkAvailableSpace + target.checkGarbageBytes := by
  obtain ⟨left, right, boundaryKey, split, halved⟩ :=
    handleSplit_spec valid (valid.crowded_of_minEntry full) newBytes newPid
  have sorted := halved.rightMade.valid.keys_sorted
  have boundary := halved.boundary
  refine ⟨left, right, boundaryKey, split, halved.nonempty, ?_, halved.tuples.symm, ?_, ?_⟩
  · intro none
    rw [none] at boundary
    cases boundary
  · cases parts : right.tuples with
    | nil =>
      rw [parts] at boundary
      cases boundary
    | cons first rest =>
      rw [parts, List.head?_cons, Option.map_some, Option.some.injEq] at boundary
      rw [parts, List.map_cons, List.pairwise_cons] at sorted
      refine ⟨⟨first, .head _, boundary⟩, ?_⟩
      intro tuple member
      rw [← boundary]
      cases List.mem_cons.mp member with
      | inl same => rw [same]
      | inr later => exact sorted.1 _ (List.mem_map_of_mem later)
  · intro key
    have small : SLOT_SIZE + TUPLE_HEADER_SIZE < MIN_LEAF_PAGE_DATA := by decide
    split
    · exact ⟨halved.rightMade.entrySpace_ge halved.rightSpace bufferSize,
        Nat.lt_of_lt_of_le small halved.rightSpace⟩
    · exact ⟨halved.leftMade.entrySpace_ge halved.leftSpace bufferSize,
        Nat.lt_of_lt_of_le small halved.leftSpace⟩

def packedFive : LeafPage :=
  ⟨2, 55, 0, 0, 0, [⟨false, 3288, 808⟩, ⟨false, 2480, 808⟩, ⟨false, 1672, 808⟩, ⟨false, 864, 808⟩,
    ⟨false, 56, 808⟩], fun _ => 0⟩

theorem leaf_split_partition_five : ∃ left right boundaryKey,
    packedFive.handleSplit (fun _ => 0) 3 = (left, some right, boundaryKey) ∧
    left.tuples ≠ [] ∧ right.tuples ≠ [] ∧ left.tuples ++ right.tuples = packedFive.tuples ∧
    ((∃ tuple ∈ right.tuples, keyOf tuple = boundaryKey) ∧ ∀ tuple ∈ right.tuples,
      boundaryKey ≤ keyOf tuple) ∧
    ∀ key, let target := if key ≥ boundaryKey then right else left
      minEntry 8 ≤ target.entrySpace ∧ SLOT_SIZE + TUPLE_HEADER_SIZE < target.checkAvailableSpace +
        target.checkGarbageBytes :=
  leaf_split_partition packedFive (by decide) 8 (by decide) (fun _ => 0) 3

end Datashil.LeafPage
