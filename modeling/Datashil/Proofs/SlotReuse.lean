import Datashil.Proofs.Defragmentation
import Datashil.Proofs.LeafRepair
import Mathlib.Data.List.InsertIdx

/-! What happens to the slots of deleted tuples when tuples are moved to a page: one that
stands right before the place of a tuple is used again, and all are dropped if the page has
to be defragmented. Only the keys of the slots and the free space decide about it. -/

namespace Datashil
open Library LeafPage

/-- The keys of the slots, none for a deleted one, and the free space, at one place and elsewhere. -/
structure Directory where
  cells : List (Option Nat)
  free : Nat
  garbage : Nat
  deriving DecidableEq

namespace Directory

def place (directory : Directory) (key : Nat) : Nat :=
  directory.cells.findIdx fun cell => cell.any fun other => key < other

def Reuses (directory : Directory) (key : Nat) : Prop :=
  directory.place key ≠ 0 ∧ directory.cells.getD (directory.place key - 1) (some 0) = none

instance (directory : Directory) (key : Nat) : Decidable (directory.Reuses key) :=
  inferInstanceAs (Decidable (_ ∧ _))

def packed (directory : Directory) (size : Nat) : Directory :=
  if directory.free < size then
    ⟨directory.cells.filter Option.isSome,
      directory.free + directory.garbage +
        (directory.cells.length - (directory.cells.filter Option.isSome).length) * SLOT_SIZE, 0⟩
  else directory

def put (directory : Directory) (key size : Nat) : Directory :=
  if directory.Reuses key then
    ⟨directory.cells.set (directory.place key - 1) (some key), directory.free + SLOT_SIZE - size,
      directory.garbage⟩
  else ⟨directory.cells.insertIdx (directory.place key) (some key), directory.free - size, directory.garbage⟩

def add (directory : Directory) (key size : Nat) : Directory := (directory.packed size).put key size

def addAll (directory : Directory) : List (Nat × Nat) → Directory
  | [] => directory
  | tuple :: tuples => (directory.add tuple.1 (tuple.2 + SLOT_SIZE)).addAll tuples

/-- The slots of deleted tuples that are gone then. -/
def reclaimed (directory : Directory) (tuples : List (Nat × Nat)) : Nat :=
  directory.cells.length + tuples.length - (directory.addAll tuples).cells.length

theorem free_put (directory : Directory) (key : Nat) {size : Nat} (room : size ≤ directory.free) :
    (directory.put key size).free + size + SLOT_SIZE * (directory.put key size).cells.length =
      directory.free + SLOT_SIZE * (directory.cells.length + 1) := by
  have inside : directory.place key ≤ directory.cells.length := List.findIdx_le_length
  rw [put]
  split
  · rw [List.length_set]
    simp only [SLOT_SIZE]
    omega
  · rw [List.length_insertIdx_of_le_length inside]
    simp only
    omega

end Directory

namespace LeafPage
variable {page borrower lender : LeafPage} {element : SlotArrayElement} {slots : List SlotArrayElement}
    {bytes : Memory Byte}

def cell (bytes : Memory Byte) (element : SlotArrayElement) : Option Nat :=
  if element.isDeleted then none else some (getKeyFromSlotElement bytes element)

def slotDirectory (page : LeafPage) : Directory :=
  ⟨page.slotArray.map (cell page.bytes), page.checkAvailableSpace, page.checkGarbageBytes⟩

theorem cell_live (live : element.isDeleted = false) :
    cell bytes element = some (getKeyFromSlotElement bytes element) := by
  rw [cell, live]
  rfl

theorem cell_dead (dead : element.isDeleted = true) : cell bytes element = none := by
  rw [cell, dead]
  rfl

theorem cell_eq_none : cell bytes element = none ↔ element.isDeleted = true := by
  cases deleted : element.isDeleted with
  | true => exact iff_of_true (cell_dead deleted) rfl
  | false =>
    rw [cell_live deleted]
    exact iff_of_false nofun nofun

/-- The cells without the deleted ones are the keys of the tuples. -/
theorem cells_filter (fits : FitLengths slots) :
    (slots.map (cell bytes)).filter Option.isSome = (tuplesOf slots bytes).map fun tuple =>
      some (keyOf tuple) := by
  induction slots with
  | nil => rfl
  | cons element slots ih =>
    have here := (fitLengths_cons.mp fits).1
    have later := ih (fitLengths_cons.mp fits).2
    cases live : element.isDeleted with
    | true =>
      rw [List.map_cons, cell_dead live, tuplesOf_cons_dead live, List.filter_cons_of_neg (by simp),
        later]
    | false =>
      rw [List.map_cons, cell_live live, tuplesOf_cons_live live, List.filter_cons_of_pos (by simp),
        later, List.map_cons,
        getKey_eq_keyOf here.1]

theorem Valid.place (valid : page.Valid) (key : Nat) :
    page.slotDirectory.place key = page.upperBound key := by
  have isBound := upperBound_spec (Nat.le_trans valid.slots_le (by decide)) valid.sorted key
  have small : ∀ i element, page.slotArray[i]? = some element → i < page.upperBound key →
      (cell page.bytes element).any (fun other => decide (key < other)) = false := by
    intro i element located before
    cases live : element.isDeleted with
    | true =>
      rw [cell_dead live]
      rfl
    | false =>
      have passed := isBound.passed i element located live before
      rw [cell_live live]
      simpa using passed
  rw [Directory.place, LeafPage.slotDirectory]
  cases Nat.lt_or_eq_of_le isBound.inside with
  | inl inside =>
    have bound : page.upperBound key < (page.slotArray.map (cell page.bytes)).length := by
      rwa [List.length_map]
    refine (List.findIdx_eq bound).mpr ⟨?_, fun i before => ?_⟩
    · obtain ⟨live, above⟩ := isBound.found _ (List.getElem?_eq_getElem inside)
      rw [List.getElem_map, cell_live live]
      simpa using above
    · rw [List.getElem_map]
      exact small i _ (List.getElem?_eq_getElem (Nat.lt_trans before inside)) before
  | inr last =>
    rw [last, ← List.length_map (cell page.bytes), List.findIdx_eq_length]
    intro other member
    obtain ⟨element, inside, rfl⟩ := List.mem_map.mp member
    obtain ⟨i, bound, rfl⟩ := List.mem_iff_getElem.mp inside
    exact small i _ (List.getElem?_eq_getElem bound) (by omega)

def packedFor (page : LeafPage) (size : Nat) : LeafPage :=
  if size > page.checkAvailableSpace then page.defragmentPage else page

theorem Valid.packedFor (valid : page.Valid) (size : Nat) : (page.packedFor size).Valid := by
  rw [LeafPage.packedFor]
  split
  · exact valid.defragment.valid
  · exact valid

theorem Valid.directory_packed (valid : page.Valid) (size : Nat) :
    (page.packedFor size).slotDirectory = page.slotDirectory.packed size := by
  rw [LeafPage.packedFor, Directory.packed]
  by_cases scattered : page.slotDirectory.free < size
  · rw [if_pos scattered, if_pos (show size > page.checkAvailableSpace from scattered)]
    have made := valid.defragment
    have alive : ∀ cell' ∈ page.defragmentPage.slotArray.map (cell page.defragmentPage.bytes),
        cell'.isSome = true := by
      intro cell' member
      obtain ⟨element, inside, rfl⟩ := List.mem_map.mp member
      rw [cell_live (made.alive element inside)]
      rfl
    have cells : page.defragmentPage.slotArray.map (cell page.defragmentPage.bytes) =
        (page.slotArray.map (cell page.bytes)).filter Option.isSome := by
      rw [← List.filter_eq_self.mpr alive, cells_filter made.valid.lengths, cells_filter valid.lengths]
      exact congrArg (List.map _) made.tuples_eq
    have slots := congrArg List.length cells
    rw [List.length_map] at slots
    simp only [LeafPage.slotDirectory, Directory.mk.injEq]
    refine ⟨cells, ?_, made.garbage⟩
    rw [valid.defragment_space, ← slots, List.length_map]
  · rw [if_neg scattered, if_neg (show ¬ size > page.checkAvailableSpace from scattered)]

theorem Valid.reuses_iff (valid : page.Valid) (key : Nat) : page.slotDirectory.Reuses key ↔
    page.upperBound key ≠ 0 ∧ (page.slotArray.getD (page.upperBound key - 1) default).isDeleted = true := by
  rw [Directory.Reuses, valid.place]
  refine and_congr_right fun some => ?_
  have inside := (upperBound_spec (Nat.le_trans valid.slots_le (by decide)) valid.sorted key).inside
  have bound : page.upperBound key - 1 < page.slotArray.length := by omega
  rw [LeafPage.slotDirectory, List.getD_eq_getElem?_getD, List.getElem?_map,
    List.getElem?_eq_getElem bound, Option.map_some, Option.getD_some,
    cell_eq_none, List.getD_eq_getElem?_getD, List.getElem?_eq_getElem bound, Option.getD_some]

theorem Valid.cells_insertSlot (valid : page.Valid) {key : Nat} {slot : SlotArrayElement} (size : Nat)
    (old : page.slotArray.map (cell bytes) = page.slotArray.map (cell page.bytes))
    (new : cell bytes slot = some key) :
    (insertSlot page.slotArray (page.upperBound key) slot).map (cell bytes) =
      (page.slotDirectory.put key size).cells := by
  have reuses := valid.reuses_iff key
  rw [insertSlot, Directory.put]
  by_cases again : page.slotDirectory.Reuses key
  · rw [if_neg (reuses.mp again).1, if_pos (reuses.mp again).2, if_pos again, List.map_set, old, new,
      valid.place]
    rfl
  · have apart : (if page.upperBound key = 0 then page.slotArray.insertIdx (page.upperBound key) slot
        else if (page.slotArray.getD (page.upperBound key - 1) default).isDeleted then
          page.slotArray.set (page.upperBound key - 1) slot
        else page.slotArray.insertIdx (page.upperBound key) slot) =
          page.slotArray.insertIdx (page.upperBound key) slot := by
      split
      · rfl
      next some => rw [if_neg fun deleted => again (reuses.mpr ⟨some, deleted⟩)]
    rw [apart, if_neg again, List.map_insertIdx, old, new, valid.place]
    rfl

/-- Bytes above the free space keep the keys of all tuples. -/
theorem Valid.cells_kept (valid : page.Valid)
    (frame : ∀ i, page.freeSpaceEndOffset < i → bytes i = page.bytes i) :
    page.slotArray.map (cell bytes) = page.slotArray.map (cell page.bytes) := by
  apply List.map_congr_left
  intro element member
  cases live : element.isDeleted with
  | true => rw [cell_dead live, cell_dead live]
  | false =>
    have extent := valid.placed.extent element member live
    rw [cell_live live, cell_live live, getKeyFromSlotElement, getKeyFromSlotElement]
    exact congrArg (some ∘ LittleEndian.decode) (Memory.read_congr fun i _ => frame _ (by omega))

theorem placeTuple_directory (valid : page.Valid) {payloadSize : Nat} {buffer : Pointer}
    (bufferSize : Nat) {key : Nat}
    (defaultTuple : Option Pointer)
    (low : TUPLE_HEADER_SIZE + SIZEOF_KEY ≤ payloadSize) (high : payloadSize ≤ MAX_LEAF_PAGE_DATA - SLOT_SIZE)
    (room : payloadSize + SLOT_SIZE ≤ page.checkAvailableSpace)
    (keyed : LittleEndian.decode (buffer.read SIZEOF_KEY) = key) :
    (page.placeTuple payloadSize buffer bufferSize key defaultTuple).1.slotDirectory =
      page.slotDirectory.put key (payloadSize + SLOT_SIZE) := by
  obtain ⟨result, address, placed, stored, -⟩ :=
    placeTuple_spec valid bufferSize defaultTuple low high room keyed
  have available := valid.availableSpace
  have header : TUPLE_HEADER_SIZE = 13 := rfl
  have long : 13 + 8 ≤ payloadSize := low
  have tupleLength : (headerBytes bufferSize defaultTuple ++
      buffer.read (payloadSize - TUPLE_HEADER_SIZE)).length = payloadSize := by
    rw [List.length_append, length_headerBytes, Pointer.length_read]
    omega
  have here : address = u16 (page.freeSpaceEndOffset - payloadSize + 1 : Int) :=
    (congrArg (fun pair => pair.2.overflowInfoStoreAddress) placed).symm
  have slots : result.slotArray = insertSlot page.slotArray (page.upperBound key)
      ⟨false, address, payloadSize⟩ := by
    rw [here]
    exact (congrArg (fun pair => pair.1.slotArray) placed).symm
  have garbage : result.garbageBytes = page.garbageBytes :=
    (congrArg (fun pair => pair.1.garbageBytes) placed).symm
  have space : u16 (page.freeSpaceEndOffset - payloadSize + 1 : Int) + payloadSize =
      page.freeSpaceEndOffset + 1 := by
    have accounting := valid.accounting
    simp only [LEAF_PAGE_HEADER_SIZE, SLOT_SIZE, PAGE_SIZE] at available accounting room
    rw [u16_eq (show _ = ((page.freeSpaceEndOffset + 1 - payloadSize : Nat) : Int) by omega) (by omega)]
    omega
  have frame : ∀ i, page.freeSpaceEndOffset < i → result.bytes i = page.bytes i := by
    intro i above
    rw [← congrArg (fun pair => pair.1.bytes i) placed]
    simp only [placeTuple, Memory.copy]
    rw [if_neg (by omega), if_neg (by omega)]
  have new : cell result.bytes ⟨false, address, payloadSize⟩ = some key := by
    obtain ⟨-, -, -, -, -, -, -, content, -⟩ := stored.placed
    rw [tupleLength] at content
    rw [cell_live rfl, getKey_eq_keyOf low, content, keyOf_append (length_headerBytes _ _), ← keyed,
      Pointer.read, Pointer.read,
      Memory.take_read]
    simp only [SIZEOF_KEY]
    omega
  have cells := valid.cells_insertSlot (payloadSize + SLOT_SIZE) (valid.cells_kept frame) new
  rw [← slots] at cells
  have free : result.checkAvailableSpace = (page.slotDirectory.put key (payloadSize + SLOT_SIZE)).free := by
    have taken := page.slotDirectory.free_put key
      (show payloadSize + SLOT_SIZE ≤ page.slotDirectory.free from room)
    have bytes := stored.liveBytes valid
    have before := valid.totalSpace
    have after := stored.valid.totalSpace
    rw [tupleLength] at bytes
    rw [← cells, List.length_map] at taken
    generalize page.slotDirectory.put key (payloadSize + SLOT_SIZE) = directory at taken ⊢
    simp only [LeafPage.slotDirectory, List.length_map, used, bytes, checkGarbageBytes, garbage,
      SLOT_SIZE] at before after taken ⊢
    omega
  have other : (page.slotDirectory.put key (payloadSize + SLOT_SIZE)).garbage = page.garbageBytes := by
    rw [Directory.put]
    split <;> rfl
  rw [placed, LeafPage.slotDirectory, cells, free, checkGarbageBytes, garbage, ← other]

theorem WholeTurn.directory (turn : WholeTurn borrower lender element) :
    (borrower.copyTuple lender element).slotDirectory =
    borrower.slotDirectory.add (getKeyFromSlotElement lender.bytes element) (element.length + SLOT_SIZE) := by
  have size := turn.lender.lengths element turn.live.1
  have room := turn.room
  have most : MAX_LEAF_PAGE_DATA = 813 := rfl
  have dataSize : min (u32 (SLOT_SIZE + TUPLE_HEADER_SIZE + (element.length - TUPLE_HEADER_SIZE)))
    MAX_LEAF_PAGE_DATA =
      element.length + SLOT_SIZE := by
    simp only [SLOT_SIZE, TUPLE_HEADER_SIZE, SIZEOF_KEY, most] at size ⊢
    rw [u32_eq (by omega)]
    omega
  have payloadSize : u16 ((element.length + SLOT_SIZE : Nat) - (SLOT_SIZE : Nat) : Int) = element.length := by
    simp only [SLOT_SIZE, most] at size ⊢
    exact u16_eq (by omega) (by omega)
  have enough : element.length + SLOT_SIZE ≤
      (borrower.packedFor (element.length + SLOT_SIZE)).checkAvailableSpace := by
    have compacted := turn.borrower.defragment_available
    rw [packedFor]
    split <;> omega
  simp only [copyTuple, writeChunkLeaf, dataSize, room, ite_true, payloadSize]
  rw [Directory.add, ← turn.borrower.directory_packed]
  exact placeTuple_directory (turn.borrower.packedFor _) _ _ size.1 size.2 enough rfl

def entries (slots : List SlotArrayElement) (bytes : Memory Byte) : List (Nat × Nat) :=
  (slots.filter fun element => !element.isDeleted).map fun element =>
    (getKeyFromSlotElement bytes element, element.length)

theorem entries_dead (dead : element.isDeleted = true) :
    entries (element :: slots) bytes = entries slots bytes := by
  rw [entries, List.filter_cons_of_neg (by simpa using dead)]
  rfl

theorem entries_live (live : element.isDeleted = false) :
    entries (element :: slots) bytes = (getKeyFromSlotElement bytes element, element.length) ::
      entries slots bytes := by
  rw [entries, List.filter_cons_of_pos (by simpa using live)]
  rfl

/-- A page that has borrowed has taken in the first live tuples the loop comes to. -/
theorem borrowLoop_directory (indices : List Nat) (amount : Nat) (borrower lender : LeafPage)
    (nodup : indices.Nodup)
    (whole : ∀ turn ∈ borrowTurns indices amount borrower lender, WholeTurn turn.1 turn.2.1 turn.2.2) :
    (borrowLoop indices amount borrower lender).1.slotDirectory =
      borrower.slotDirectory.addAll
        ((entries (indices.map fun index => lender.slotArray.getD index default) lender.bytes).take
        amount) := by
  induction indices generalizing amount borrower lender with
  | nil =>
    rw [List.map_nil, entries, List.filter_nil, List.map_nil, List.take_nil]
    rfl
  | cons index indices ih =>
    obtain ⟨outside, nodup⟩ := List.nodup_cons.mp nodup
    rw [borrowTurns] at whole
    rw [borrowLoop, List.map_cons]
    by_cases done : amount = 0
    · rw [if_pos done, done, List.take_zero]
      rfl
    rw [if_neg done] at whole ⊢
    simp only at whole ⊢
    cases deleted : (lender.slotArray.getD index default).isDeleted with
    | true =>
      rw [deleted, if_pos rfl] at whole
      rw [if_pos rfl, entries_dead deleted]
      exact ih amount borrower lender nodup whole
    | false =>
      rw [deleted, if_neg (by simp)] at whole
      rw [if_neg (by simp), entries_live deleted]
      have here := (whole _ (.head _)).directory
      have later := ih _ _ _ nodup fun turn member => whole turn (.tail _ member)
      obtain ⟨less, rfl⟩ : ∃ less, amount = less + 1 := ⟨amount - 1, by omega⟩
      have same : indices.map (fun other =>
        (lender.discard index (lender.slotArray.getD index default)).slotArray.getD other default) =
          indices.map fun other => lender.slotArray.getD other default := by
        apply List.map_congr_left
        intro other member
        have apart : index ≠ other := by
          rintro rfl
          exact outside member
        simp only [discard, List.getD_eq_getElem?_getD, List.getElem?_set_ne apart]
      rw [later, here, same, List.take_succ_cons]
      rfl

/-- A page that has taken in slots of another has taken in the live tuples among them. -/
theorem mergeLoop_directory (fromPage : LeafPage) (slots : List SlotArrayElement) (toPage merged : LeafPage)
    (whole : ∀ turn ∈ mergeTurns fromPage slots toPage, WholeTurn turn.1 fromPage turn.2)
    (merges : mergeLoop fromPage slots toPage = .ok merged) :
    merged.slotDirectory = toPage.slotDirectory.addAll (entries slots fromPage.bytes) := by
  induction slots generalizing toPage with
  | nil =>
    cases merges
    rfl
  | cons element slots ih =>
    rw [mergeTurns] at whole
    rw [mergeLoop] at merges
    cases deleted : element.isDeleted with
    | true =>
      rw [deleted, if_pos rfl] at whole merges
      rw [entries_dead deleted]
      exact ih toPage whole merges
    | false =>
      rw [deleted, if_neg (by simp)] at whole merges
      simp only at merges
      split at merges
      · cases merges
      · rw [entries_live deleted, ih _ (fun turn member => whole turn (.tail _ member)) merges,
          (whole _ (.head _)).directory]
        rfl

end LeafPage
end Datashil
