import Datashil.Proofs.LeafDelete

/-! Defragmentation keeps what a leaf page stores and gives its garbage back. -/

namespace Datashil.LeafPage
open Library
variable {page : LeafPage}

/-- What the caller of a search gets to see: the result without the place of the tuple, and the
bytes there. -/
def answer (page : LeafPage) (key : Nat) : Bool × Nat × Bool × Nat × List Byte :=
  let result := page.search key
  (result.found, result.totalTupleSize, result.overflow, result.overflowPageId,
    page.bytes.read result.tupleOffset (result.tupleEndOffset - result.tupleOffset))

def answerOf (tuple : List Byte) : Bool × Nat × Bool × Nat × List Byte :=
  let header := TupleHeader.decode (tuple.take TUPLE_HEADER_SIZE)
  (true, header.size, 0 < header.overflow, header.overflowPage, tuple)

theorem FirstWith.unique {key : Nat} {tuples first second first' second' : List (List Byte)}
    {tuple tuple' : List Byte}
    (here : FirstWith key tuples first tuple second)
    (there : FirstWith key tuples first' tuple' second') : tuple = tuple' := by
  obtain ⟨parts, same, below⟩ := here
  obtain ⟨parts', same', below'⟩ := there
  rw [parts] at parts'
  cases List.append_eq_append_iff.mp parts' with
  | inl longer =>
    obtain ⟨more, front, back⟩ := longer
    cases more with
    | nil => exact (List.cons.inj back).1
    | cons other more =>
      have inside : tuple ∈ first' := by
        rw [front, (List.cons.inj back).1]
        exact List.mem_append_right _ (.head _)
      have less := below' tuple inside
      omega
  | inr shorter =>
    obtain ⟨more, front, back⟩ := shorter
    cases more with
    | nil => exact (List.cons.inj back).1.symm
    | cons other more =>
      have inside : tuple' ∈ first := by
        rw [front, (List.cons.inj back).1]
        exact List.mem_append_right _ (.head _)
      have less := below tuple' inside
      omega

/-- The answer depends on the stored tuples alone. -/
theorem Valid.answer_spec (valid : page.Valid) (key : Nat) :
    ((∀ tuple ∈ page.tuples, keyOf tuple ≠ key) ∧ page.answer key = (false, 0, false, 0, [])) ∨
      ∃ first tuple second, FirstWith key page.tuples first tuple second ∧
        page.answer key = answerOf tuple := by
  cases search_spec valid key with
  | inl absent =>
    refine .inl ⟨absent.1, ?_⟩
    simp only [answer, absent.2]
    rfl
  | inr present =>
    obtain ⟨first, tuple, second, offset, firstWith, bytes, found⟩ := present
    refine .inr ⟨first, tuple, second, firstWith, ?_⟩
    simp only [answer, found, answerOf, Nat.add_sub_cancel_left, bytes]

theorem answer_congr {other : LeafPage} (valid : page.Valid) (valid' : other.Valid)
    (same : other.tuples = page.tuples) (key : Nat) :
    other.answer key = page.answer key := by
  have before := valid.answer_spec key
  have after := valid'.answer_spec key
  rw [same] at after
  cases before with
  | inl absent =>
    cases after with
    | inl absent' => rw [absent.2, absent'.2]
    | inr present =>
      obtain ⟨first, tuple, second, ⟨parts, here, -⟩, -⟩ := present
      exact absurd here (absent.1 tuple (by rw [parts]; exact List.mem_append_right _ (.head _)))
  | inr present =>
    obtain ⟨first, tuple, second, firstWith, found⟩ := present
    cases after with
    | inl absent =>
      obtain ⟨parts, here, -⟩ := firstWith
      exact absurd here (absent.1 tuple (by rw [parts]; exact List.mem_append_right _ (.head _)))
    | inr present' =>
      obtain ⟨first', tuple', second', firstWith', found'⟩ := present'
      rw [found, found', firstWith.unique firstWith']

theorem Valid.defragment_space (valid : page.Valid) : page.defragmentPage.checkAvailableSpace =
    page.checkAvailableSpace + page.checkGarbageBytes +
      (page.slotArray.length - page.defragmentPage.slotArray.length) * SLOT_SIZE := by
  have before := valid.totalSpace
  have after := valid.defragment.valid.totalSpace
  have none : page.defragmentPage.checkGarbageBytes = 0 := valid.defragment.garbage
  have bytes := valid.defragment_liveBytes
  have slots := valid.defragment_slots
  simp only [used, SLOT_SIZE, LEAF_PAGE_HEADER_SIZE, PAGE_SIZE] at before after ⊢
  omega

/-- Defragmenting keeps the live tuples, the links and the answers to all searches, leaves no
garbage and no deleted slot, and turns both into free space; doing it again changes nothing of this. -/
theorem defragment_keeps (page : LeafPage) (valid : page.Valid) :
    let result := page.defragmentPage
    result.tuples = page.tuples ∧
    (result.pageId = page.pageId ∧ result.leftPid = page.leftPid ∧ result.rightPid = page.rightPid) ∧
    result.garbageBytes = 0 ∧
    ((∀ element ∈ result.slotArray, element.isDeleted = false) ∧
      result.slotArray.length = page.tuples.length) ∧
    result.checkAvailableSpace =
      page.checkAvailableSpace + page.checkGarbageBytes +
        (page.slotArray.length - page.tuples.length) * SLOT_SIZE ∧
    (∀ key, result.answer key = page.answer key) ∧
    result.defragmentPage.tuples = result.tuples ∧
      result.defragmentPage.checkAvailableSpace = result.checkAvailableSpace := by
  have made := valid.defragment
  have again := made.valid.defragment
  have slots : page.defragmentPage.defragmentPage.slotArray.length =
      page.defragmentPage.slotArray.length := by
    rw [again.slots, made.slots, made.tuples_eq]
  have space := valid.defragment_space
  rw [made.slots] at space
  refine ⟨made.tuples_eq, ⟨rfl, rfl, rfl⟩, made.garbage, ⟨made.alive, made.slots⟩, space, ?_,
    again.tuples_eq, ?_⟩
  · exact answer_congr valid made.valid made.tuples_eq
  · have none : page.defragmentPage.checkGarbageBytes = 0 := made.garbage
    rw [made.valid.defragment_space, slots, none, Nat.sub_self, Nat.zero_mul, Nat.add_zero]

/-- Three tuples, the second of them deleted. -/
def gap : LeafPage :=
  (([10, 20, 30].foldl (fun page key =>
    (page.writeChunkLeaf (.ofBuffer (LittleEndian.encode 8 key)) 8 key none).1)
    (makePage (fun _ => 0) [] (fun _ => 0) 3 0 0)).deleteTuple 20).1

theorem defragment_keeps_gap :
    let result := gap.defragmentPage
    result.tuples = gap.tuples ∧
    (result.pageId = gap.pageId ∧ result.leftPid = gap.leftPid ∧ result.rightPid = gap.rightPid) ∧
    result.garbageBytes = 0 ∧
    ((∀ element ∈ result.slotArray, element.isDeleted = false) ∧
      result.slotArray.length = gap.tuples.length) ∧
    result.checkAvailableSpace =
      gap.checkAvailableSpace + gap.checkGarbageBytes +
        (gap.slotArray.length - gap.tuples.length) * SLOT_SIZE ∧
    (∀ key, result.answer key = gap.answer key) ∧
    result.defragmentPage.tuples = result.tuples ∧
      result.defragmentPage.checkAvailableSpace = result.checkAvailableSpace :=
  defragment_keeps gap (by decide +kernel)

end Datashil.LeafPage
