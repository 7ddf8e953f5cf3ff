import Datashil.Proofs.LeafWrite

/-! Finding and deleting tuples. Deletion is lazy: the slot stays and its bytes
become garbage, so the used space shrinks by the tuple but not by the slot. -/

namespace Datashil.LeafPage
open Library

variable {page : LeafPage}

/-! ### Discarding a slot -/

structure Discarded (page result : LeafPage) (tuple : List Byte) : Prop where
  valid : result.Valid
  pageId : result.pageId = page.pageId
  leftPid : result.leftPid = page.leftPid
  rightPid : result.rightPid = page.rightPid
  used : result.used + tuple.length = page.used

theorem Valid.discard (valid : page.Valid) {first second : List SlotArrayElement} {element : SlotArrayElement}
    (slots : page.slotArray = first ++ element :: second) (live : element.isDeleted = false) :
    Discarded page (page.discard first.length element) (page.bytes.read element.offset element.length) ∧
      (page.discard first.length element).tuples = tuplesOf first page.bytes ++
        tuplesOf second page.bytes := by
  have lengths := valid.lengths
  have placed := valid.placed
  have directory := valid.directory
  have accounting := valid.accounting
  have garbage := valid.garbage
  have sorted := valid.keys_sorted
  have after : (page.discard first.length element).slotArray = first ++
      { element with isDeleted := true } :: second := by
    simp only [LeafPage.discard, slots]
    rw [List.set_append_right _ _ (Nat.le_refl _), Nat.sub_self, List.set_cons_zero]
  have contents : (page.discard first.length element).tuples = tuplesOf first page.bytes ++
      tuplesOf second page.bytes := by
    rw [LeafPage.tuples, after, tuplesOf_append, tuplesOf_cons_dead rfl]
    rfl
  have fit : FitLengths (first ++ { element with isDeleted := true } :: second) := by
    rw [slots] at lengths
    simpa using lengths
  rw [LeafPage.tuples, slots, tuplesOf_append, tuplesOf_cons_live live] at sorted
  rw [slots] at placed garbage accounting directory
  simp only [liveBytes_append, liveBytes_cons, deadBytes_append, deadBytes_cons, live,
    Bool.false_eq_true, ite_false,
    List.length_append, List.length_cons, LEAF_PAGE_HEADER_SIZE, SLOT_SIZE,
      PAGE_SIZE] at garbage accounting directory
  have exact : u16 (page.garbageBytes + element.length : Int) = page.garbageBytes + element.length :=
    u16_eq (by omega) (by omega)
  refine ⟨⟨⟨?_, after ▸ fit, ⟨?_, ?_⟩, ?_, ?_, ?_⟩, rfl, rfl, rfl, ?_⟩, contents⟩
  · simp only [after, List.length_append, List.length_cons, LEAF_PAGE_HEADER_SIZE, SLOT_SIZE]
    simpa only [LeafPage.discard] using directory
  · rw [after]
    intro slot member alive
    rcases List.mem_append.mp member with member | member
    · exact placed.extent slot (by simp [member]) alive
    · rcases List.mem_cons.mp member with rfl | member
      · simp at alive
      · exact placed.extent slot (by simp [member]) alive
  · rw [after]
    have apart := placed.apart
    simp only [List.pairwise_append, List.pairwise_cons, List.mem_cons] at apart ⊢
    refine ⟨apart.1, ⟨fun _ _ dead => by simp at dead, apart.2.1.2⟩, ?_⟩
    rintro slot member other (rfl | inside)
    · intro _ dead
      simp at dead
    · exact apart.2.2 slot member other (.inr inside)
  · rw [after]
    simp only [LeafPage.discard, exact, liveBytes_append, liveBytes_cons, ite_true, PAGE_SIZE]
    omega
  · rw [after]
    simp only [LeafPage.discard, exact, deadBytes_append, deadBytes_cons, ite_true]
    omega
  · rw [after, sortedSlots_iff fit, tuplesOf_append, tuplesOf_cons_dead rfl]
    exact sorted.sublist (List.Sublist.map _ (List.Sublist.append_left (List.sublist_cons_self _ _) _))
  · simp only [LeafPage.used, after, slots, liveBytes_append, liveBytes_cons, live, ite_true,
      Bool.false_eq_true, ite_false,
      List.length_append, List.length_cons, Memory.length_read]
    omega

/-! ### Finding a key -/

/-- Where a lower bound stops, in terms of the stored tuples. -/
theorem Valid.lowerBound_cases (valid : page.Valid) (key : Nat) :
    (page.slotArray[page.lowerBound key]? = none ∧ ∀ other ∈ page.tuples, keyOf other < key) ∨
    ∃ first element second, page.slotArray = first ++ element :: second ∧ first.length = page.lowerBound key ∧
      page.slotArray[page.lowerBound key]? = some element ∧ element.isDeleted = false ∧
      key ≤ keyOf (page.bytes.read element.offset element.length) ∧
      ∀ other ∈ tuplesOf first page.bytes, keyOf other < key := by
  have few := valid.slots_le
  have isBound := lowerBound_spec (by omega) valid.sorted key
  have below : ∀ (i : Nat) slot, page.slotArray[i]? = some slot → slot.isDeleted = false →
    i < page.lowerBound key →
      keyOf (page.bytes.read slot.offset slot.length) < key := by
    intro i slot found live before
    have passed := isBound.passed i slot found live before
    rw [← getKey_eq_keyOf (valid.lengths _ (List.mem_of_getElem? found)).1]
    simpa using passed
  cases found : page.slotArray[page.lowerBound key]? with
  | none =>
    refine .inl ⟨rfl, ?_⟩
    intro other member
    obtain ⟨slot, inside, live, rfl⟩ := mem_tuplesOf.mp member
    obtain ⟨i, bound, rfl⟩ := List.mem_iff_getElem.mp inside
    have ended := List.getElem?_eq_none_iff.mp found
    exact below i _ (List.getElem?_eq_getElem bound) live (by omega)
  | some element =>
    obtain ⟨live, stops⟩ := isBound.found element found
    obtain ⟨bound, at_⟩ := List.getElem?_eq_some_iff.mp found
    refine .inr ⟨page.slotArray.take (page.lowerBound key), element,
      page.slotArray.drop (page.lowerBound key + 1), ?_, ?_,
      rfl, live, ?_, ?_⟩
    · rw [← at_, ← List.drop_eq_getElem_cons, List.take_append_drop]
    · rw [List.length_take]
      omega
    · rw [← getKey_eq_keyOf (valid.lengths _ (List.mem_of_getElem? found)).1]
      simpa using stops
    · intro other member
      obtain ⟨slot, inside, alive, rfl⟩ := mem_tuplesOf.mp member
      obtain ⟨i, small, rfl⟩ := List.mem_iff_getElem.mp inside
      have before : i < page.lowerBound key := by
        rw [List.length_take] at small
        omega
      refine below i _ ?_ alive before
      rw [List.getElem_take, List.getElem?_eq_getElem]

/-- The tuples before, the first one with a key, and those after. -/
def FirstWith (key : Nat) (tuples first : List (List Byte)) (tuple : List Byte)
    (second : List (List Byte)) : Prop :=
  tuples = first ++ tuple :: second ∧ keyOf tuple = key ∧ ∀ other ∈ first, keyOf other < key

/-- If the first key not below the sought one is another, the sought one is nowhere. -/
private theorem absent_of_passed {key : Nat} {first second : List (List Byte)} {next : List Byte}
    (sorted : ((first ++ next :: second).map keyOf).Pairwise (· ≤ ·))
    (below : ∀ other ∈ first, keyOf other < key)
    (above : key ≤ keyOf next) (other : keyOf next ≠ key) :
    ∀ tuple ∈ first ++ next :: second, keyOf tuple ≠ key := by
  simp only [List.map_append, List.map_cons, List.pairwise_append, List.pairwise_cons, List.mem_map] at sorted
  intro tuple member
  rcases List.mem_append.mp member with member | member
  · exact Nat.ne_of_lt (below tuple member)
  · rcases List.mem_cons.mp member with rfl | member
    · exact other
    · have := sorted.2.1.1 _ ⟨tuple, member, rfl⟩
      omega

theorem search_spec (valid : page.Valid) (key : Nat) :
    ((∀ tuple ∈ page.tuples, keyOf tuple ≠ key) ∧ page.search key = ⟨false, 0, 0, 0, false, 0⟩) ∨
    ∃ first tuple second offset, FirstWith key page.tuples first tuple second ∧
      page.bytes.read offset tuple.length = tuple ∧
      page.search key =
        let header := TupleHeader.decode (tuple.take TUPLE_HEADER_SIZE)
        ⟨true, offset, offset + tuple.length, header.size, 0 < header.overflow, header.overflowPage⟩ := by
  rcases valid.lowerBound_cases key with ⟨missing, below⟩ | ⟨first, element, second, slots, -, found,
    live, above, below⟩
  · refine .inl ⟨fun tuple member => Nat.ne_of_lt (below tuple member), ?_⟩
    simp only [LeafPage.search, missing]
  have size := valid.lengths element (List.mem_of_getElem? found)
  have contents : page.tuples =
      tuplesOf first page.bytes ++ page.bytes.read element.offset element.length ::
        tuplesOf second page.bytes := by
    rw [tuples, slots, tuplesOf_append, tuplesOf_cons_live live]
  have keyEq : getKeyFromSlotElement page.bytes element = _ := getKey_eq_keyOf size.1
  by_cases same : keyOf (page.bytes.read element.offset element.length) = key
  · refine .inr ⟨_, _, _, element.offset, ⟨contents, same, below⟩, by rw [Memory.length_read], ?_⟩
    simp only [LeafPage.search, found, keyEq, same, ite_true, Memory.length_read, SearchResult.mk.injEq,
      true_and]
    rw [Memory.take_read _ _ _ _ (by simp only [TUPLE_HEADER_SIZE, SIZEOF_KEY] at size ⊢; omega)]
    simp
  · refine .inl ⟨?_, by simp only [LeafPage.search, found, keyEq, same, ite_false]⟩
    rw [contents]
    exact absent_of_passed (contents ▸ valid.keys_sorted) below above same

/-- Deleting removes the first tuple with the key, if there is one. -/
theorem deleteTuple_spec (valid : page.Valid) (key : Nat) :
    ((∀ tuple ∈ page.tuples, keyOf tuple ≠ key) ∧ page.deleteTuple key = (page, false)) ∨
    ∃ first tuple second result, FirstWith key page.tuples first tuple second ∧
      page.deleteTuple key = (result, true) ∧ Discarded page result tuple ∧
        result.tuples = first ++ second := by
  rcases valid.lowerBound_cases key with ⟨missing, below⟩ | ⟨first, element, second, slots, start,
    found, live, above, below⟩
  · refine .inl ⟨fun tuple member => Nat.ne_of_lt (below tuple member), ?_⟩
    simp only [deleteTuple, missing]
  have size := valid.lengths element (List.mem_of_getElem? found)
  have contents : page.tuples =
      tuplesOf first page.bytes ++ page.bytes.read element.offset element.length ::
        tuplesOf second page.bytes := by
    rw [tuples, slots, tuplesOf_append, tuplesOf_cons_live live]
  have keyEq : getKeyFromSlotElement page.bytes element = _ := getKey_eq_keyOf size.1
  by_cases same : keyOf (page.bytes.read element.offset element.length) = key
  · obtain ⟨discarded, remaining⟩ := valid.discard slots live
    refine .inr ⟨_, _, _, page.discard first.length element, ⟨contents, same, below⟩, ?_, discarded,
      remaining⟩
    simp only [deleteTuple, found, keyEq, same, live, start, ne_eq, not_true_eq_false,
      Bool.false_eq_true, ite_false]
  · refine .inl ⟨?_, by simp only [deleteTuple, found, keyEq, ne_eq, same, not_false_eq_true, ite_true]⟩
    rw [contents]
    exact absent_of_passed (contents ▸ valid.keys_sorted) below above same

end Datashil.LeafPage
