import Datashil.Proofs.DeleteOccupation

/-! Borrowing and merging as steps of a tree: what becomes of two neighbouring
leaves, and where the separator between them goes. -/

namespace Datashil
open Library LeafPage

namespace LeafPage
variable {cut : Nat → Nat → Prop} {page child sibling : LeafPage}

theorem getPageFirstKey_eq (valid : page.Valid) (nonempty : page.tuples ≠ []) :
    page.tuples.head?.map keyOf = some page.getPageFirstKey := by
  have fits := valid.lengths
  rw [tuples, tuplesOf] at nonempty ⊢
  rw [List.head?_map, List.head?_filter, getPageFirstKey]
  cases found : page.slotArray.find? fun element => !element.isDeleted with
  | none =>
    exfalso
    refine nonempty (List.map_eq_nil_iff.mpr (List.filter_eq_nil_iff.mpr fun element member => ?_))
    exact List.find?_eq_none.mp found element member
  | some element =>
    simp only [Option.map_some]
    rw [getKey_eq_keyOf (fits element (List.mem_of_find?_eq_some found)).1]

theorem shortage_spec (underflown : child.used ≤ LEAF_UNDERFLOW_THRESHOLD) :
    child.used + child.shortage = LEAF_UNDERFLOW_THRESHOLD + 1 ∧ 0 < child.shortage := by
  have threshold : LEAF_UNDERFLOW_THRESHOLD = 1626 := rfl
  have exact : child.shortage = LEAF_UNDERFLOW_THRESHOLD + 1 - child.used := u16_eq (by omega) (by omega)
  omega

/-- A borrow leaves no key on both sides of the cut. -/
def CleanLeftBorrow (cut : Nat → Nat → Prop) (sibling child : LeafPage) : Prop :=
  (sibling.canLendFromRight child.shortage).canBorrow = true →
    Separated cut (child.leftBorrowed sibling).2.1 (child.leftBorrowed sibling).1

def CleanRightBorrow (cut : Nat → Nat → Prop) (child sibling : LeafPage) : Prop :=
  (sibling.canLendFromLeft child.shortage).canBorrow = true →
    Separated cut (child.rightBorrowed sibling).1 (child.rightBorrowed sibling).2.1

private theorem lent_nonempty {slots : List SlotArrayElement} {bytes : Memory Byte}
    (some_live : 0 < liveCount slots) :
    tuplesOf slots bytes ≠ [] := by
  intro none
  rw [tuplesOf, List.map_eq_nil_iff, List.filter_eq_nil_iff] at none
  rw [liveCount, List.countP_pos_iff] at some_live
  obtain ⟨element, member, live⟩ := some_live
  exact none element member live

private theorem kept_perm {lender borrower lender' borrower' : LeafPage} (kept : List SlotArrayElement)
    {lent : List SlotArrayElement}
    (moved : Moved borrower lender borrower' lender' (tuplesOf lent lender.bytes))
    (slots : lender.slotArray.Perm (lent ++ kept)) : lender'.tuples.Perm (tuplesOf kept lender.bytes) := by
  have whole : lender.tuples.Perm (tuplesOf lent lender.bytes ++ tuplesOf kept lender.bytes) := by
    rw [tuples, ← tuplesOf_append, tuplesOf, tuplesOf]
    exact (slots.filter _).map _
  exact (List.perm_append_left_iff _).mp (moved.lost.symm.trans whole)

theorem leftBorrowed_spec (childValid : child.Valid) (siblingValid : sibling.Valid)
    (underflown : child.used ≤ LEAF_UNDERFLOW_THRESHOLD)
    (lends : (sibling.canLendFromRight child.shortage).canBorrow = true)
    (clean : CleanLeftBorrow cut sibling child) :
    LeafRotated cut sibling child (child.leftBorrowed sibling).2.1 (child.leftBorrowed sibling).1
      (child.leftBorrowed sibling).2.2 := by
  obtain ⟨short, positive⟩ := shortage_spec underflown
  have separated := clean lends
  obtain ⟨kept, lent, borrower', lender', slots, answer, result, loan⟩ :=
    handleLeftBorrow_spec childValid siblingValid short positive lends
  rw [leftBorrowed, answer, result] at separated ⊢
  have gained := loan.moved.gained
  have nonempty : borrower'.tuples ≠ [] := by
    intro none
    rw [none] at gained
    exact lent_nonempty loan.amount (List.append_eq_nil_iff.mp gained.nil_eq.symm).1
  refine ⟨loan.moved.lenderValid, loan.moved.borrowerValid, loan.moved.lenderIds, loan.moved.borrowerIds, ?_,
    Tree.nonempty_of_used loan.moved.lenderValid loan.stays,
      getPageFirstKey_eq loan.moved.borrowerValid nonempty, separated⟩
  refine (gained.append_left lender'.tuples).trans ?_
  rw [← List.append_assoc]
  exact (List.perm_append_comm.trans loan.moved.lost.symm).append_right child.tuples

theorem rightBorrowed_spec (childValid : child.Valid) (siblingValid : sibling.Valid)
    (underflown : child.used ≤ LEAF_UNDERFLOW_THRESHOLD)
    (lends : (sibling.canLendFromLeft child.shortage).canBorrow = true)
    (clean : CleanRightBorrow cut child sibling) :
    LeafRotated cut child sibling (child.rightBorrowed sibling).1 (child.rightBorrowed sibling).2.1
      (child.rightBorrowed sibling).2.2 := by
  obtain ⟨short, positive⟩ := shortage_spec underflown
  have separated := clean lends
  obtain ⟨lent, kept, borrower', lender', slots, answer, result, loan⟩ :=
    handleRightBorrow_spec childValid siblingValid short positive lends
  rw [rightBorrowed, answer, result] at separated ⊢
  have gained := loan.moved.gained
  have nonempty : borrower'.tuples ≠ [] := by
    intro none
    rw [none] at gained
    exact lent_nonempty loan.amount (List.append_eq_nil_iff.mp gained.nil_eq.symm).1
  refine ⟨loan.moved.borrowerValid, loan.moved.lenderValid, loan.moved.borrowerIds,
    loan.moved.lenderIds, ?_, nonempty,
    getPageFirstKey_eq loan.moved.lenderValid (Tree.nonempty_of_used loan.moved.lenderValid loan.stays),
      separated⟩
  refine (gained.append_right lender'.tuples).trans ?_
  refine (List.perm_append_comm.append_right _).trans ?_
  rw [List.append_assoc]
  exact loan.moved.lost.symm.append_left child.tuples

/-- A sibling that refuses fits into one page with the child. -/
theorem mergePages_refused {left right : LeafPage} (leftValid : left.Valid) (rightValid : right.Valid)
    (room : left.used + right.used ≤ PAGE_SIZE - LEAF_PAGE_HEADER_SIZE) :
    ∃ merged, left.mergePages right = .ok merged ∧ LeafMerged left right merged := by
  obtain ⟨merged, result, absorbed, -⟩ := mergePages_spec leftValid rightValid room
  exact ⟨merged, result, absorbed.valid, absorbed.ids, absorbed.tuples.trans List.perm_append_comm⟩

theorem room_of_refused_left (siblingValid : sibling.Valid)
    (underflown : child.used ≤ LEAF_UNDERFLOW_THRESHOLD)
    (refused : (sibling.canLendFromRight child.shortage).canBorrow = false) :
    sibling.used + child.used ≤ PAGE_SIZE - LEAF_PAGE_HEADER_SIZE := by
  obtain ⟨short, positive⟩ := shortage_spec underflown
  exact refused_room short (siblingValid.canLendFromRight positive) refused

theorem room_of_refused_right (siblingValid : sibling.Valid)
    (underflown : child.used ≤ LEAF_UNDERFLOW_THRESHOLD)
    (refused : (sibling.canLendFromLeft child.shortage).canBorrow = false) :
    child.used + sibling.used ≤ PAGE_SIZE - LEAF_PAGE_HEADER_SIZE := by
  obtain ⟨short, positive⟩ := shortage_spec underflown
  have room := refused_room short (siblingValid.canLendFromLeft positive) refused
  omega

/-! ### Clean borrows -/

theorem length_tuplesOf (slots : List SlotArrayElement) (bytes : Memory Byte) :
    (tuplesOf slots bytes).length = liveCount slots := by
  rw [tuplesOf, List.length_map, liveCount, List.countP_eq_length_filter]

/-- A borrow from the left is clean if the tuples that are lent are apart from those that stay. -/
theorem leftBorrowed_clean (childValid : child.Valid) (siblingValid : sibling.Valid)
    (underflown : child.used ≤ LEAF_UNDERFLOW_THRESHOLD)
    (apart : Separated cut sibling child) (inner : ∀ kept lent, sibling.tuples = kept ++ lent →
      lent.length = (sibling.canLendFromRight child.shortage).borrowAmount → ∀ first ∈ kept,
        ∀ second ∈ lent, cut (keyOf first) (keyOf second)) :
    CleanLeftBorrow cut sibling child := by
  intro lends
  obtain ⟨short, positive⟩ := shortage_spec underflown
  obtain ⟨kept, lent, borrower', lender', slots, answer, result, loan⟩ :=
    handleLeftBorrow_spec childValid siblingValid short positive lends
  have stays := kept_perm kept loan.moved (by rw [slots]; exact List.perm_append_comm)
  have parts : sibling.tuples = tuplesOf kept sibling.bytes ++ tuplesOf lent sibling.bytes := by
    rw [tuples, slots, tuplesOf_append]
  have inner := inner _ _ parts (by rw [length_tuplesOf, answer])
  rw [leftBorrowed, answer, result]
  intro first firstMem second secondMem
  have firstKept := stays.mem_iff.mp firstMem
  rcases List.mem_append.mp (loan.moved.gained.mem_iff.mp secondMem) with moved | own
  · exact inner first firstKept second moved
  · exact apart first (by rw [parts]; exact List.mem_append_left _ firstKept) second own

theorem rightBorrowed_clean (childValid : child.Valid) (siblingValid : sibling.Valid)
    (underflown : child.used ≤ LEAF_UNDERFLOW_THRESHOLD)
    (apart : Separated cut child sibling) (inner : ∀ lent kept, sibling.tuples = lent ++ kept →
      lent.length = (sibling.canLendFromLeft child.shortage).borrowAmount → ∀ first ∈ lent,
        ∀ second ∈ kept, cut (keyOf first) (keyOf second)) :
    CleanRightBorrow cut child sibling := by
  intro lends
  obtain ⟨short, positive⟩ := shortage_spec underflown
  obtain ⟨lent, kept, borrower', lender', slots, answer, result, loan⟩ :=
    handleRightBorrow_spec childValid siblingValid short positive lends
  have stays := kept_perm kept loan.moved (by rw [slots])
  have parts : sibling.tuples = tuplesOf lent sibling.bytes ++ tuplesOf kept sibling.bytes := by
    rw [tuples, slots, tuplesOf_append]
  have inner := inner _ _ parts (by rw [length_tuplesOf, answer])
  rw [rightBorrowed, answer, result]
  intro first firstMem second secondMem
  have secondKept := stays.mem_iff.mp secondMem
  rcases List.mem_append.mp (loan.moved.gained.mem_iff.mp firstMem) with moved | own
  · exact inner first moved second secondKept
  · exact apart first own second (by rw [parts]; exact List.mem_append_right _ secondKept)

theorem Valid.parts_ordered {page : LeafPage} (valid : page.Valid) {first second : List (List Byte)}
    (parts : page.tuples = first ++ second) :
    ∀ lower ∈ first, ∀ upper ∈ second, keyOf lower ≤ keyOf upper := by
  have sorted := valid.keys_sorted
  rw [parts, List.map_append, List.pairwise_append] at sorted
  exact fun lower lowerMem upper upperMem =>
    sorted.2.2 _ (List.mem_map_of_mem lowerMem) _ (List.mem_map_of_mem upperMem)

end LeafPage
end Datashil
