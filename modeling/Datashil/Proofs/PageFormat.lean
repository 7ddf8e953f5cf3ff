import Datashil.PageFormat
import Datashil.Proofs.InternalRows
import Datashil.Proofs.LeafLayout

/-! Pages that have been written as bytes and read again. Nothing is lost that a page of a
tree needs: slot arrays, tuples, keys, children and chunks of payloads come back. -/

namespace Datashil
open Library

/-! ### Leaf pages -/

namespace SlotArrayElement
variable {element : SlotArrayElement}

/-- An entry as it comes back; the offset of a deleted slot is of no use. -/
def reread (element : SlotArrayElement) : SlotArrayElement :=
  ⟨element.isDeleted, element.offset % 65536, element.length % 65536⟩

theorem decode_encode (element : SlotArrayElement) (later : List Byte) :
    decode (Packed.encode element.fields ++ later) = element.reread := by
  have flag : Packed.read (Packed.encode element.fields ++ later) 0 1 =
      (if element.isDeleted then 1 else 0) % 256 :=
    Packed.read_encode 0 rfl rfl
  have offset : Packed.read (Packed.encode element.fields ++ later) 1 2 = element.offset % 65536 :=
    Packed.read_encode 1 rfl rfl
  have length : Packed.read (Packed.encode element.fields ++ later) 3 2 = element.length % 65536 :=
    Packed.read_encode 2 rfl rfl
  rw [decode, flag, offset, length, reread]
  cases element.isDeleted <;> rfl

end SlotArrayElement

namespace LeafPage
variable {page : LeafPage}

theorem length_fields : (Packed.encode page.fields).length = LEAF_PAGE_HEADER_SIZE := Packed.length_encode _

theorem length_slots : (page.slotArray.flatMap fun element => Packed.encode element.fields).length =
    page.slotArray.length * SLOT_SIZE :=
  Packed.length_flatMap fun element _ => Packed.length_encode element.fields

theorem length_encode (fits : page.slotArrayEnd ≤ PAGE_SIZE) : page.encode.length = PAGE_SIZE := by
  simp only [encode, List.length_append, length_fields, length_slots, Memory.length_read, slotArrayEnd]
    at fits ⊢
  omega

theorem read_header (index : Nat) {start width value : Nat}
    (found : page.fields[index]? = some (width, value))
    (place : Packed.size (page.fields.take index) = start) :
    Packed.read page.encode start width = value % 256 ^ width := by
  rw [encode, List.append_assoc, Packed.read_encode index found place]

def reread (page : LeafPage) : LeafPage :=
  { decode page.encode with pageId := page.pageId, rightPid := page.rightPid }

theorem decode_encode (pageId : page.pageId < 18446744073709551616)
    (rightPid : page.rightPid < 18446744073709551616) :
    decode page.encode = page.reread := by
  have own : (decode page.encode).pageId = page.pageId :=
    (read_header 1 rfl rfl).trans (Nat.mod_eq_of_lt pageId)
  have right : (decode page.encode).rightPid = page.rightPid :=
    (read_header 6 rfl rfl).trans (Nat.mod_eq_of_lt rightPid)
  rw [reread, ← own, ← right]

theorem pageId_reread (page : LeafPage) : page.reread.pageId = page.pageId := by simp only [reread]
theorem rightPid_reread (page : LeafPage) : page.reread.rightPid = page.rightPid := by simp only [reread]

theorem slotArray_reread (few : page.slotArray.length < 65536) :
    page.reread.slotArray = page.slotArray.map SlotArrayElement.reread := by
  have count : Packed.read page.encode 11 2 = page.slotArray.length :=
    (read_header 3 rfl rfl).trans (Nat.mod_eq_of_lt few)
  simp only [reread, decode, count]
  apply List.ext_getElem (by simp)
  intro index first second
  have inside : index < page.slotArray.length := by simpa using second
  have each : ∀ element ∈ page.slotArray, (Packed.encode element.fields).length = SLOT_SIZE :=
    fun element _ => Packed.length_encode element.fields
  obtain ⟨later, same⟩ := Packed.drop_flatMap
    (page.bytes.read page.slotArrayEnd (PAGE_SIZE - page.slotArrayEnd)) each
    (List.getElem?_eq_getElem inside)
  rw [List.getElem_map, List.getElem_map, List.getElem_range, encode, List.append_assoc,
    ← List.drop_drop, List.drop_left' length_fields, same,
    SlotArrayElement.decode_encode]

theorem read_reread (fits : page.slotArrayEnd ≤ PAGE_SIZE) {start count : Nat}
    (low : page.slotArrayEnd ≤ start) (high : start + count ≤ PAGE_SIZE) :
    page.reread.bytes.read start count = page.bytes.read start count := by
  have front : (Packed.encode page.fields ++
      (page.slotArray.flatMap fun element => Packed.encode element.fields)).length =
      page.slotArrayEnd := by
    rw [List.length_append, length_fields, length_slots, slotArrayEnd]
  obtain ⟨skipped, rfl⟩ := Nat.exists_eq_add_of_le low
  have whole := length_encode fits
  simp only [reread, decode]
  rw [Memory.read_ofList_range _ _ _ (by omega), encode, ← List.drop_drop, List.drop_left' front,
    Memory.drop_read _ _ _ _ (by omega),
    Memory.take_read _ _ _ _ (by omega)]

section Valid
variable (valid : page.Valid)
include valid

theorem Valid.slotArrayEnd_le : page.slotArrayEnd ≤ page.freeSpaceEndOffset + 1 ∧
    page.freeSpaceEndOffset + 1 ≤ PAGE_SIZE := by
  have accounting := valid.accounting
  refine ⟨valid.directory, ?_⟩
  simp only [PAGE_SIZE] at accounting ⊢
  omega

theorem Valid.slots_reread : page.reread.slotArray = page.slotArray.map SlotArrayElement.reread :=
  slotArray_reread (Nat.lt_of_le_of_lt valid.slots_le (by decide))

theorem Valid.element_reread {element : SlotArrayElement} (member : element ∈ page.slotArray) :
    element.reread.length = element.length ∧
      (element.isDeleted = false → element.reread.offset = element.offset) := by
  have lengths := valid.lengths element member
  have limit : MAX_LEAF_PAGE_DATA - SLOT_SIZE = 808 := rfl
  refine ⟨Nat.mod_eq_of_lt (by omega), fun live => Nat.mod_eq_of_lt ?_⟩
  have extent := (valid.placed.extent element member live).2
  simp only [PAGE_SIZE] at extent
  omega

theorem Valid.tuples_reread : page.reread.tuples = page.tuples := by
  obtain ⟨below, inside⟩ := valid.slotArrayEnd_le
  simp only [tuples, tuplesOf, valid.slots_reread, List.filter_map, List.map_map]
  apply List.map_congr_left
  intro element member
  obtain ⟨among, live⟩ := List.mem_filter.mp member
  have live : element.isDeleted = false := by simpa [SlotArrayElement.reread] using live
  obtain ⟨length, offset⟩ := valid.element_reread among
  have extent := valid.placed.extent element among live
  rw [Function.comp_apply, length, offset live, read_reread (by omega) (by omega) extent.2]

theorem Valid.reread : page.reread.Valid := by
  have slots := valid.slots_reread
  have inside := valid.slotArrayEnd_le.2
  have accounting := valid.accounting
  simp only [PAGE_SIZE] at inside accounting
  have free : page.reread.freeSpaceEndOffset = page.freeSpaceEndOffset :=
    (read_header 2 rfl rfl).trans (Nat.mod_eq_of_lt (by omega))
  have garbage : page.reread.garbageBytes = page.garbageBytes :=
    (read_header 4 rfl rfl).trans (Nat.mod_eq_of_lt (by omega))
  have live : liveBytes page.reread.slotArray = liveBytes page.slotArray := by
    rw [slots, liveBytes, liveBytes, List.map_map]
    refine congrArg List.sum (List.map_congr_left fun element member => ?_)
    rw [Function.comp_apply, (valid.element_reread member).1, SlotArrayElement.reread]
  have dead : deadBytes page.reread.slotArray = deadBytes page.slotArray := by
    rw [slots, deadBytes, deadBytes, List.map_map]
    refine congrArg List.sum (List.map_congr_left fun element member => ?_)
    rw [Function.comp_apply, (valid.element_reread member).1, SlotArrayElement.reread]
  have lengths : FitLengths page.reread.slotArray := by
    rw [slots]
    intro element member
    obtain ⟨before, among, rfl⟩ := List.mem_map.mp member
    rw [(valid.element_reread among).1]
    exact valid.lengths before among
  refine ⟨?_, lengths, ⟨?_, ?_⟩, ?_, ?_, ?_⟩
  · rw [free, slots, List.length_map]
    exact valid.directory
  · rw [free, slots]
    intro element member alive
    obtain ⟨before, among, rfl⟩ := List.mem_map.mp member
    obtain ⟨length, offset⟩ := valid.element_reread among
    rw [length, offset alive]
    exact valid.placed.extent before among alive
  · rw [slots, List.pairwise_map]
    apply List.Pairwise.imp_of_mem _ valid.placed.apart
    intro first second among among' apart alive alive'
    obtain ⟨length, offset⟩ := valid.element_reread among
    obtain ⟨length', offset'⟩ := valid.element_reread among'
    rw [Apart, length, offset alive, length', offset' alive']
    exact apart alive alive'
  · rw [live, garbage, free]
    exact valid.accounting
  · rw [dead, garbage]
    exact valid.garbage
  · rw [sortedSlots_iff lengths]
    have sorted := valid.keys_sorted
    rw [← valid.tuples_reread] at sorted
    exact sorted

end Valid
end LeafPage

/-! ### Internal pages -/

namespace InternalPage
variable {page : InternalPage} {before : PageBuffer} {row : Row Nat Nat}

theorem length_encode (page : InternalPage) (before : PageBuffer) :
    (page.encode before).length = PAGE_SIZE := by
  have words : ((page.words.read KEYS_START WORDS).flatMap (LittleEndian.encode 8)).length = WORDS * 8 := by
    rw [Packed.length_flatMap fun word _ => LittleEndian.length_encode 8 word, Memory.length_read]
  rw [encode, List.length_append, List.length_append, words, Packed.length_encode, List.length_drop, before.2]
  rfl

theorem read_header (index : Nat) {start width value : Nat}
    (found : page.fields[index]? = some (width, value))
    (place : Packed.size (page.fields.take index) = start) :
    Packed.read (page.encode before) start width = value % 256 ^ width := by
  rw [encode, List.append_assoc, Packed.read_encode index found place]

theorem words_decode {index : Nat} (inside : index < WORDS) (fits : page.words index < 18446744073709551616) :
    (decode (page.encode before)).words index = page.words index := by
  have header : (Packed.encode page.fields).length = INTERNAL_PAGE_HEADER_SIZE := Packed.length_encode _
  have found : (page.words.read KEYS_START WORDS)[index]? = some (page.words index) := by
    rw [Memory.getElem?_read _ _ _ _ inside, KEYS_START, Nat.zero_add]
  obtain ⟨later, same⟩ := Packed.drop_flatMap (before.1.drop (INTERNAL_PAGE_HEADER_SIZE + WORDS * 8))
    (fun word _ => LittleEndian.length_encode 8 word) found
  have word : (decode (page.encode before)).words index =
      Packed.read (page.encode before) (INTERNAL_PAGE_HEADER_SIZE + index * 8) 8 :=
    rfl
  calc (decode (page.encode before)).words index
    _ = Packed.read ((page.encode before).drop (INTERNAL_PAGE_HEADER_SIZE + index * 8)) 0 8 := by
      rw [word, Packed.read_drop, Nat.add_zero]
    _ = Packed.read (LittleEndian.encode 8 (page.words index) ++ later) 0 8 := by
      rw [encode, List.append_assoc, ← List.drop_drop, List.drop_left' header, same]
    _ = page.words index := (Packed.read_encode_zero _ _ _).trans (Nat.mod_eq_of_lt fits)

theorem Shows.reread (shown : page.Shows row) (keys : ∀ key ∈ row.keys, key < 18446744073709551616)
    (children : ∀ child ∈ row.children, child < 18446744073709551616) :
    (decode (page.encode before)).Shows row := by
  have fits := shown.fits
  have limit : WORDS = NUM_KEY_SLOTS + (NUM_KEY_SLOTS + 1) := rfl
  have numKeys : (decode (page.encode before)).numKeys = page.numKeys := by
    refine (read_header 2 rfl rfl).trans (Nat.mod_eq_of_lt ?_)
    rw [shown.numKeys]
    exact Nat.lt_of_le_of_lt fits (by decide)
  have kept : ∀ start count, start + count ≤ WORDS →
    (∀ word ∈ page.words.read start count, word < 18446744073709551616) →
      (decode (page.encode before)).words.read start count = page.words.read start count := by
    intro start count inside small
    apply Memory.read_congr
    intro i here
    exact words_decode (by omega) (small _ (List.mem_map.mpr ⟨i, List.mem_range.mpr here, rfl⟩))
  refine ⟨fits, numKeys.trans shown.numKeys, ?_, ?_⟩
  · rw [kept _ _ (by simp only [KEYS_START]; omega) (shown.keys.symm ▸ keys), shown.keys]
  · rw [kept _ _ (by simp only [CHILDREN_START, KEYS_START]; omega) (shown.children.symm ▸ children),
      shown.children]

end InternalPage

/-! ### Overflow pages -/

namespace OverflowPage
variable {page : OverflowPage}

theorem length_encode (page : OverflowPage) : page.encode.length = PAGE_SIZE := by
  rw [encode, List.length_append, Packed.length_encode, Memory.length_read]
  rfl

theorem read_header (index : Nat) {start width value : Nat}
    (found : page.fields[index]? = some (width, value))
    (place : Packed.size (page.fields.take index) = start) :
    Packed.read page.encode start width = value % 256 ^ width := by
  rw [encode, Packed.read_encode index found place]

theorem overflow_decode (flagged : page.overflow < 256) : (decode page.encode).overflow = page.overflow :=
  (read_header 2 rfl rfl).trans (Nat.mod_eq_of_lt flagged)

theorem overflowPage_decode (fits : page.overflowPage < 18446744073709551616) :
    (decode page.encode).overflowPage = page.overflowPage :=
  (read_header 3 rfl rfl).trans (Nat.mod_eq_of_lt fits)

theorem read_decode {count : Nat} (fits : count ≤ PAGE_SIZE - OVERFLOW_PAGE_HEADER_SIZE) :
    (decode page.encode).bytes.read OVERFLOW_PAGE_HEADER_SIZE count =
      page.bytes.read OVERFLOW_PAGE_HEADER_SIZE count := by
  have header : (Packed.encode page.fields).length = OVERFLOW_PAGE_HEADER_SIZE := Packed.length_encode _
  have whole := length_encode page
  have room : OVERFLOW_PAGE_HEADER_SIZE + (PAGE_SIZE - OVERFLOW_PAGE_HEADER_SIZE) = PAGE_SIZE := rfl
  rw [decode, Memory.read_ofList_range _ _ _ (by omega), encode, List.drop_left' header,
    Memory.take_read _ _ _ _ fits]

end OverflowPage

/-! ### Pages of all kinds -/

namespace Page
variable {pid : Nat} {before : PageBuffer}

theorem decode_blank (pid : Nat) : decode pid (encode .blank before) = .blank := by
  have zeros : ∀ width, width ≤ PAGE_SIZE → Packed.read (List.replicate PAGE_SIZE 0) 0 width = 0 := by
    intro width le
    have zero : ∀ n, LittleEndian.decode (List.replicate n 0) = 0 := by
      intro n
      induction n with
      | zero => rfl
      | succ n ih => simp [List.replicate_succ, LittleEndian.decode, ih]
    rw [Packed.read, List.drop_zero, List.take_replicate, zero]
  rw [decode, encode, zeros _ (by decide), zeros _ (by decide)]
  split <;> rfl

theorem decode_nil (pid : Nat) : decode pid [] = .blank := by
  rw [decode]
  split <;> rfl

theorem decode_databaseMeta {rootPageId : Nat} (fits : rootPageId < 18446744073709551616) :
    decode DATABASE_META_PAGE_ID (encode (.databaseMeta DATABASE_MAGIC_NUMBER rootPageId) before) =
      .databaseMeta DATABASE_MAGIC_NUMBER rootPageId := by
  have magic : Packed.read (encode (.databaseMeta DATABASE_MAGIC_NUMBER rootPageId) before) 0
      MAGIC_NUMBER_SIZE = DATABASE_MAGIC_NUMBER % 256 ^ 4 :=
    Packed.read_encode 0 rfl rfl
  have root : Packed.read (encode (.databaseMeta DATABASE_MAGIC_NUMBER rootPageId) before)
      MAGIC_NUMBER_SIZE 8 = rootPageId :=
    (Packed.read_encode 1 rfl rfl).trans (Nat.mod_eq_of_lt fits)
  rw [decode, if_pos rfl, magic, root, if_pos (by decide)]

theorem decode_internal (other : pid ≠ DATABASE_META_PAGE_ID) (page : InternalPage) :
    decode pid (encode (.internal page) before) = .internal (.decode (page.encode before)) := by
  have type : Packed.read (page.encode before) 0 1 = PageType.internalPage.value := page.read_header 0 rfl rfl
  rw [decode, if_neg other, encode, if_pos type]

theorem decode_leaf (other : pid ≠ DATABASE_META_PAGE_ID) (page : LeafPage) :
    decode pid (encode (.leaf page) before) = .leaf (.decode page.encode) := by
  have type : Packed.read page.encode 0 1 = PageType.leafPage.value := page.read_header 0 rfl rfl
  rw [decode, if_neg other, encode, type, if_neg (by decide), if_pos rfl]

theorem decode_overflow (other : pid ≠ DATABASE_META_PAGE_ID) (page : OverflowPage) :
    decode pid (encode (.overflow page) before) = .overflow (.decode page.encode) := by
  have type : Packed.read page.encode 0 1 = PageType.overflowPage.value := page.read_header 0 rfl rfl
  rw [decode, if_neg other, encode, type, if_neg (by decide), if_neg (by decide), if_pos rfl]

/-- Flags that have been read are single bytes. -/
theorem flagged_decode (pid : Nat) (block : List Byte) :
    ∀ page, decode pid block = .overflow page → page.overflow < 256 := by
  intro page decoded
  have small : (OverflowPage.decode block).overflow <
      256 ^ ((block.drop OverflowPage.OVERFLOW_INFO_OFFSET).take 1).length :=
    LittleEndian.decode_lt _
  have one : ((block.drop OverflowPage.OVERFLOW_INFO_OFFSET).take 1).length ≤ 1 := List.length_take_le _ _
  rw [decode] at decoded
  split at decoded
  · split at decoded <;> cases decoded
  · split at decoded
    · cases decoded
    · split at decoded
      · cases decoded
      · split at decoded
        · cases decoded
          exact Nat.lt_of_lt_of_le small (Nat.pow_le_pow_right (by decide) one)
        · cases decoded

end Page
end Datashil
