import Datashil.Proofs.LeafLayout

/-! Building, defragmenting and writing leaf pages keeps the layout and changes
the stored tuples by exactly the one written. -/

namespace Datashil.LeafPage
open Library

/-! ### Compaction -/

structure Compacted (buffer : Memory Byte) (source : List SlotArrayElement) (start : Nat)
    (bytes : Memory Byte)
    (result : List SlotArrayElement × Nat × Memory Byte) : Prop where
  alive : ∀ element ∈ result.1, element.isDeleted = false
  ending : result.2.1 + liveBytes source = start
  tuples : tuplesOf result.1 result.2.2 = tuplesOf source buffer
  extent : ∀ element ∈ result.1, result.2.1 < element.offset ∧ element.offset + element.length ≤ start + 1
  apart : result.1.Pairwise Apart
  lengths : result.1.map SlotArrayElement.length =
    (source.filter fun element => !element.isDeleted).map SlotArrayElement.length
  frame : ∀ i, start < i → result.2.2 i = bytes i

theorem compact_spec (buffer : Memory Byte) (source : List SlotArrayElement) (start : Nat)
    (bytes : Memory Byte)
    (room : liveBytes source ≤ start) (small : start < PAGE_SIZE) :
    Compacted buffer source start bytes (compact buffer source start bytes) := by
  induction source generalizing start bytes with
  | nil =>
    exact ⟨by simp [compact], by simp [compact], rfl, by simp [compact], by simp [compact], rfl,
      fun _ _ => rfl⟩
  | cons element source ih =>
    rw [liveBytes_cons] at room
    cases live : element.isDeleted with
    | true =>
      simp only [live, ite_true, Nat.zero_add] at room
      obtain ⟨alive, ending, tuples, extent, apart, lengths, frame⟩ := ih start bytes room small
      have step : compact buffer (element :: source) start bytes = compact buffer source start bytes := by
        simp [compact, live]
      rw [step]
      exact ⟨alive, by simpa [live] using ending, by rw [tuplesOf_cons_dead live]; exact tuples, extent,
        apart,
        by simpa [live] using lengths, frame⟩
    | false =>
      simp only [live, Bool.false_eq_true, ite_false] at room
      simp only [PAGE_SIZE] at small ih
      have offset : u16 (start - element.length + 1 : Int) = start - element.length + 1 :=
        u16_eq (by omega) (by omega)
      have next : u16 ((start - element.length + 1 : Nat) - 1 : Int) = start - element.length :=
        u16_eq (by omega) (by omega)
      have rest := ih (start - element.length)
        (bytes.copy (start - element.length + 1) buffer element.offset element.length) (by omega) (by omega)
      have step : compact buffer (element :: source) start bytes =
          let final := compact buffer source (start - element.length)
            (bytes.copy (start - element.length + 1) buffer element.offset element.length)
          (⟨false, start - element.length + 1, element.length⟩ :: final.1, final.2.1, final.2.2) := by
        simp only [compact, live, Bool.false_eq_true, ite_false, offset, next]
      rw [step]
      generalize compact buffer source (start - element.length) _ = final at rest ⊢
      obtain ⟨alive, ending, tuples, extent, apart, lengths, frame⟩ := rest
      refine ⟨?_, ?_, ?_, ?_, ?_, ?_, ?_⟩
      · simpa using alive
      · simp only [liveBytes_cons, live, Bool.false_eq_true, ite_false]
        omega
      · rw [tuplesOf_cons_live rfl, tuplesOf_cons_live live, tuples]
        congr 1
        -- Later tuples are written below this one.
        have kept : final.2.2.read (start - element.length + 1) element.length =
            (bytes.copy (start - element.length + 1) buffer element.offset element.length).read
              (start - element.length + 1) element.length :=
          Memory.read_congr fun i _ => frame _ (by omega)
        rw [kept, Memory.read_copy_same]
      · simp only
        intro other member
        rcases List.mem_cons.mp member with rfl | member
        · simp only; omega
        · have := extent other member
          omega
      · refine List.pairwise_cons.mpr ⟨?_, apart⟩
        intro other member
        have := extent other member
        exact .inr (by simp only; omega)
      · simp [live, lengths]
      · intro i above
        rw [frame i (by omega)]
        simp only [Memory.copy]
        rw [if_neg (by omega)]

private theorem liveBytes_alive {slots : List SlotArrayElement}
    (alive : ∀ element ∈ slots, element.isDeleted = false) :
    liveBytes slots = (slots.map SlotArrayElement.length).sum := by
  unfold liveBytes
  congr 1
  apply List.map_congr_left
  intro element member
  simp [alive element member]

private theorem deadBytes_alive {slots : List SlotArrayElement}
    (alive : ∀ element ∈ slots, element.isDeleted = false) :
    deadBytes slots = 0 := by
  induction slots with
  | nil => rfl
  | cons element slots ih =>
    rw [deadBytes_cons, ih fun other member => alive other (.tail _ member), alive element (.head _)]
    simp

theorem liveBytes_filter (slots : List SlotArrayElement) :
    liveBytes slots = ((slots.filter fun element => !element.isDeleted).map SlotArrayElement.length).sum := by
  induction slots with
  | nil => rfl
  | cons element slots ih => cases live : element.isDeleted <;> simp [live, ih]

theorem length_tuplesOf_le (slots : List SlotArrayElement) (bytes : Memory Byte) :
    (tuplesOf slots bytes).length ≤ slots.length := by
  simpa [tuplesOf] using List.length_filter_le _ slots

structure Made (page : LeafPage) (tuples : List (List Byte)) : Prop where
  valid : page.Valid
  tuples_eq : page.tuples = tuples
  slots : page.slotArray.length = tuples.length
  alive : ∀ element ∈ page.slotArray, element.isDeleted = false
  garbage : page.garbageBytes = 0

theorem makePage_spec (bytes : Memory Byte) (source : List SlotArrayElement) (buffer : Memory Byte)
    (pid leftPid rightPid : Nat) (lengths : FitLengths source)
    (sorted : ((tuplesOf source buffer).map keyOf).Pairwise (· ≤ ·))
    (room : LEAF_PAGE_HEADER_SIZE + source.length * SLOT_SIZE + liveBytes source ≤ PAGE_SIZE) :
    Made (makePage bytes source buffer pid leftPid rightPid) (tuplesOf source buffer) := by
  simp only [LEAF_PAGE_HEADER_SIZE, SLOT_SIZE, PAGE_SIZE] at room
  have spec := compact_spec buffer source (PAGE_SIZE - 1) bytes (by simp only [PAGE_SIZE]; omega)
    (by simp [PAGE_SIZE])
  simp only [makePage]
  generalize compact buffer source (PAGE_SIZE - 1) bytes = result at spec ⊢
  obtain ⟨slots, end_, result⟩ := result
  obtain ⟨alive, ending, tuples, extent, apart, sizes, -⟩ := spec
  have count : slots.length = (tuplesOf source buffer).length := by
    simpa [tuplesOf] using congrArg List.length sizes
  have fewer := length_tuplesOf_le source buffer
  have live : liveBytes slots = liveBytes source := by
    rw [liveBytes_alive alive, liveBytes_filter source, sizes]
  have fit : FitLengths slots := by
    intro element member
    have inside : element.length ∈ slots.map SlotArrayElement.length :=
      List.mem_map.mpr ⟨element, member, rfl⟩
    rw [sizes] at inside
    obtain ⟨other, kept, same⟩ := List.mem_map.mp inside
    rw [← same]
    exact lengths other (List.mem_filter.mp kept).1
  simp only [PAGE_SIZE] at ending extent
  refine ⟨⟨?_, fit, ⟨?_, ?_⟩, ?_, ?_, ?_⟩, tuples, count, alive, rfl⟩
  · simp only [LEAF_PAGE_HEADER_SIZE, SLOT_SIZE, count]
    omega
  · intro element member _
    have := extent element member
    simp only [PAGE_SIZE]
    omega
  · exact apart.imp fun separate _ _ => separate
  · simp only [live, PAGE_SIZE]; omega
  · simp only [deadBytes_alive alive, Nat.le_refl]
  · exact (sortedSlots_iff fit).mpr (by simpa only [tuples] using sorted)

theorem makePage_empty (bytes buffer : Memory Byte) (pid leftPid rightPid : Nat) :
    Made (makePage bytes [] buffer pid leftPid rightPid) [] :=
  makePage_spec bytes [] buffer pid leftPid rightPid (by simp [FitLengths]) (by simp)
    (by simp [LEAF_PAGE_HEADER_SIZE, PAGE_SIZE])

@[simp] theorem makePage_pageId (bytes buffer : Memory Byte) (source : List SlotArrayElement)
    (pid leftPid rightPid : Nat) :
    (makePage bytes source buffer pid leftPid rightPid).pageId = pid := rfl

@[simp] theorem makePage_leftPid (bytes buffer : Memory Byte) (source : List SlotArrayElement)
    (pid leftPid rightPid : Nat) :
    (makePage bytes source buffer pid leftPid rightPid).leftPid = leftPid := rfl

@[simp] theorem makePage_rightPid (bytes buffer : Memory Byte) (source : List SlotArrayElement)
    (pid leftPid rightPid : Nat) :
    (makePage bytes source buffer pid leftPid rightPid).rightPid = rightPid := rfl

variable {page : LeafPage}

theorem Valid.defragment (valid : page.Valid) : Made page.defragmentPage page.tuples := by
  apply makePage_spec _ _ _ _ _ _ valid.lengths valid.keys_sorted
  have directory := valid.directory
  have accounting := valid.accounting
  simp only [LEAF_PAGE_HEADER_SIZE, SLOT_SIZE, PAGE_SIZE] at directory accounting ⊢
  omega

theorem Made.liveBytes_eq {tuples : List (List Byte)} (made : Made page tuples) :
    liveBytes page.slotArray = (tuples.map List.length).sum := by
  rw [← made.tuples_eq, LeafPage.tuples, sum_tuplesOf]

theorem Valid.liveBytes_eq (_valid : page.Valid) :
    liveBytes page.slotArray = (page.tuples.map List.length).sum := by
  rw [LeafPage.tuples, sum_tuplesOf]

theorem Valid.defragment_liveBytes (valid : page.Valid) :
    liveBytes page.defragmentPage.slotArray = liveBytes page.slotArray := by
  rw [valid.defragment.liveBytes_eq, valid.liveBytes_eq]

theorem Valid.defragment_slots (valid : page.Valid) :
    page.defragmentPage.slotArray.length ≤ page.slotArray.length := by
  rw [valid.defragment.slots]
  exact length_tuplesOf_le _ _

/-- Defragmenting turns all garbage into contiguous free space. -/
theorem Valid.defragment_available (valid : page.Valid) :
    page.checkAvailableSpace + page.checkGarbageBytes ≤ page.defragmentPage.checkAvailableSpace := by
  have before := valid.totalSpace
  have after := valid.defragment.valid.totalSpace
  have none : page.defragmentPage.checkGarbageBytes = 0 := valid.defragment.garbage
  have bytes := valid.defragment_liveBytes
  have slots := valid.defragment_slots
  simp only [used, SLOT_SIZE, LEAF_PAGE_HEADER_SIZE, PAGE_SIZE] at before after
  omega

/-! ### Placing a tuple -/

theorem insertIdx_eq_append {α : Type u} (items : List α) (index : Nat) (item : α)
    (inside : index ≤ items.length) :
    items.insertIdx index item = items.take index ++ item :: items.drop index := by
  induction index generalizing items with
  | zero => simp
  | succ index ih =>
    cases items with
    | nil => simp at inside
    | cons first items => simpa using ih items (by simpa using inside)

/-- Inserting a slot at a bound replaces at most one deleted slot before it. -/
theorem insertSlot_split (slots : List SlotArrayElement) (it : Nat) (element : SlotArrayElement)
    (inside : it ≤ slots.length) :
    ∃ first gone second, slots = first ++ gone ++ second ∧
      insertSlot slots it element = first ++ element :: second ∧
      (first ++ gone).length = it ∧ (∀ slot ∈ gone, slot.isDeleted = true) ∧ gone.length ≤ 1 := by
  by_cases start : it = 0
  · subst it
    exact ⟨[], [], slots, rfl, by simp [insertSlot], rfl, by simp, by simp⟩
  have bound : it - 1 < slots.length := by omega
  have same : slots.getD (it - 1) default = slots[it - 1] := by
    rw [List.getD_eq_getElem?_getD, List.getElem?_eq_getElem bound, Option.getD_some]
  have step : it - 1 + 1 = it := by omega
  by_cases deleted : slots[it - 1].isDeleted = true
  · refine ⟨slots.take (it - 1), [slots[it - 1]], slots.drop it, ?_, ?_, ?_, by simpa using deleted, by simp⟩
    · have cut := List.drop_eq_getElem_cons bound
      rw [step] at cut
      rw [List.append_assoc, List.singleton_append, ← cut, List.take_append_drop]
    · simp only [insertSlot, if_neg start, same, deleted, ite_true]
      rw [List.set_eq_take_append_cons_drop, if_pos bound, step]
    · simp only [List.length_append, List.length_take, List.length_singleton]
      omega
  · refine ⟨slots.take it, [], slots.drop it, by simp, ?_, by simp; omega, by simp, by simp⟩
    simp only [insertSlot, if_neg start, same, deleted, Bool.false_eq_true, ite_false]
    exact insertIdx_eq_append slots it element inside

/-- Where the upper bound of a key puts its slot: between the live tuples whose
keys are not above it and those whose keys are. -/
theorem Valid.insertSlot_bounds (valid : page.Valid) (key : Nat) (element : SlotArrayElement) :
    ∃ first gone second, page.slotArray = first ++ gone ++ second ∧
      insertSlot page.slotArray (page.upperBound key) element = first ++ element :: second ∧
      (∀ slot ∈ gone, slot.isDeleted = true) ∧
      (∀ other ∈ tuplesOf first page.bytes, keyOf other ≤ key) ∧
      (∀ other ∈ tuplesOf second page.bytes, key < keyOf other) := by
  have few := valid.slots_le
  have isBound := upperBound_spec (by omega) valid.sorted key
  obtain ⟨first, gone, second, slots, inserted, count, deleted, -⟩ :=
    insertSlot_split page.slotArray (page.upperBound key) element isBound.inside
  refine ⟨first, gone, second, slots, inserted, deleted, ?_, ?_⟩
  · intro other member
    obtain ⟨slot, inside, live, rfl⟩ := mem_tuplesOf.mp member
    obtain ⟨i, bound, rfl⟩ := List.mem_iff_getElem.mp inside
    have located : page.slotArray[i]? = some first[i] := by
      rw [slots, List.append_assoc, List.getElem?_append_left bound, List.getElem?_eq_getElem bound]
    have before : i < page.upperBound key := by
      rw [← count, List.length_append]
      omega
    have passed := isBound.passed i first[i] located live before
    rw [← getKey_eq_keyOf (valid.lengths _ (by rw [slots]; simp [inside])).1]
    simpa using passed
  · intro other member
    obtain ⟨slot, inside, live, rfl⟩ := mem_tuplesOf.mp member
    obtain ⟨i, bound, rfl⟩ := List.mem_iff_getElem.mp inside
    have located : page.slotArray[page.upperBound key + i]? = some second[i] := by
      rw [slots, ← count, List.getElem?_append_right (by omega), Nat.add_sub_cancel_left,
        List.getElem?_eq_getElem bound]
    have stops := isBound.beyond valid.sorted
      (fun low high le passes => by simp only [decide_eq_true_eq] at passes ⊢; omega) located live (by omega)
    rw [← getKey_eq_keyOf (valid.lengths _ (by rw [slots]; simp [inside])).1]
    simpa using stops

/-- A page after one tuple was written into it: where its slot went, what it
points to, and that the other tuples are as before. -/
structure Stored (page result : LeafPage) (tuple : List Byte) (address : Nat) : Prop where
  valid : result.Valid
  pageId : result.pageId = page.pageId
  leftPid : result.leftPid = page.leftPid
  rightPid : result.rightPid = page.rightPid
  placed : ∃ first element second, result.slotArray = first ++ element :: second ∧ element.isDeleted = false ∧
    element.offset = address ∧ element.length = tuple.length ∧
      result.bytes.read address tuple.length = tuple ∧
    page.tuples = tuplesOf first result.bytes ++ tuplesOf second result.bytes ∧
    (∀ other ∈ tuplesOf first result.bytes, keyOf other ≤ keyOf tuple) ∧
    (∀ other ∈ tuplesOf second result.bytes, keyOf tuple < keyOf other)
  slots : result.slotArray.length ≤ page.slotArray.length + 1

/-- A tuple list with one tuple put in after all whose keys are not above its own. -/
def Placement (before : List (List Byte)) (tuple : List Byte) (after : List (List Byte)) : Prop :=
  ∃ first second, before = first ++ second ∧ after = first ++ tuple :: second ∧
    (∀ other ∈ first, keyOf other ≤ keyOf tuple) ∧ (∀ other ∈ second, keyOf tuple < keyOf other)

theorem Stored.tuples {result : LeafPage} {address : Nat} {tuple : List Byte}
    (stored : Stored page result tuple address) : Placement page.tuples tuple result.tuples := by
  obtain ⟨first, element, second, slots, live, start, len, content, split, low, high⟩ := stored.placed
  refine ⟨_, _, split, ?_, low, high⟩
  rw [LeafPage.tuples, slots, tuplesOf_append, tuplesOf_cons_live live, start, len, content]

theorem Stored.liveBytes {result : LeafPage} {address : Nat} {tuple : List Byte} (valid : page.Valid)
    (stored : Stored page result tuple address) :
    liveBytes result.slotArray = liveBytes page.slotArray + tuple.length := by
  obtain ⟨first, second, before, after, -, -⟩ := stored.tuples
  rw [stored.valid.liveBytes_eq, valid.liveBytes_eq, before, after]
  simp
  omega

private theorem Placed.insert {first gone second : List SlotArrayElement} {start base length : Nat}
    (placed : Placed (first ++ gone ++ second) start) (ends : base + length = start)
    (inPage : start < PAGE_SIZE) :
    Placed (first ++ ⟨false, base + 1, length⟩ :: second) base := by
  have inFirst : ∀ slot ∈ first, slot.isDeleted = false → start < slot.offset ∧
      slot.offset + slot.length ≤ PAGE_SIZE :=
    fun slot member => placed.extent slot (by simp [member])
  have inSecond : ∀ slot ∈ second, slot.isDeleted = false → start < slot.offset ∧
      slot.offset + slot.length ≤ PAGE_SIZE :=
    fun slot member => placed.extent slot (by simp [member])
  constructor
  · intro slot member live
    rcases List.mem_append.mp member with member | member
    · have := inFirst slot member live
      omega
    · rcases List.mem_cons.mp member with rfl | member
      · simp only
        omega
      · have := inSecond slot member live
        omega
  · have apart := placed.apart
    rw [List.append_assoc] at apart
    have rest := apart.sublist
      (List.Sublist.append (List.Sublist.refl first) (List.sublist_append_right gone second))
    simp only [List.pairwise_append, List.pairwise_cons, List.mem_cons] at rest ⊢
    refine ⟨rest.1, ⟨?_, rest.2.1⟩, ?_⟩
    · intro slot member _ live
      have := inSecond slot member live
      exact .inl (by simp only; omega)
    · rintro slot member other (rfl | inside)
      · intro live _
        have := inFirst slot member live
        exact .inr (by simp only; omega)
      · exact rest.2.2 slot member other inside

/-- Writing a tuple right below the others and its slot at the upper bound of its key. -/
theorem Valid.store (valid : page.Valid) {tuple : List Byte} {bytes : Memory Byte} {base : Nat}
    (low : TUPLE_HEADER_SIZE + SIZEOF_KEY ≤ tuple.length)
    (high : tuple.length ≤ MAX_LEAF_PAGE_DATA - SLOT_SIZE)
    (room : tuple.length + SLOT_SIZE ≤ page.checkAvailableSpace)
    (ends : base + tuple.length = page.freeSpaceEndOffset)
    (frame : ∀ i, page.freeSpaceEndOffset < i → bytes i = page.bytes i)
    (content : bytes.read (base + 1) tuple.length = tuple) :
    Stored page
      { page with
        slotArray := insertSlot page.slotArray (page.upperBound (keyOf tuple)) ⟨false, base + 1, tuple.length⟩
        freeSpaceEndOffset := base
        bytes } tuple (base + 1) := by
  obtain ⟨first, gone, second, slots, inserted, deleted, lowKeys, highKeys⟩ :=
    valid.insertSlot_bounds (keyOf tuple) ⟨false, base + 1, tuple.length⟩
  have lengths := valid.lengths
  have placed := valid.placed
  have directory := valid.directory
  have accounting := valid.accounting
  have garbage := valid.garbage
  have available := valid.availableSpace
  have sorted := valid.keys_sorted
  have kept : ∀ part, (∀ slot ∈ part, slot ∈ page.slotArray) →
      tuplesOf part bytes = tuplesOf part page.bytes := by
    intro part inside
    apply tuplesOf_congr
    intro slot member live
    have := placed.extent slot (inside slot member) live
    exact Memory.read_congr fun i _ => frame _ (by omega)
  have keptFirst : tuplesOf first bytes = tuplesOf first page.bytes :=
    kept first (by rw [slots]; simp +contextual)
  have keptSecond : tuplesOf second bytes = tuplesOf second page.bytes :=
    kept second (by rw [slots]; simp +contextual)
  have goneTuples : tuplesOf gone page.bytes = [] := by
    simpa [tuplesOf, List.filter_eq_nil_iff] using deleted
  have goneLive : LeafPage.liveBytes gone = 0 := by
    rw [← sum_tuplesOf _ page.bytes, goneTuples]
    rfl
  have before : page.tuples = tuplesOf first bytes ++ tuplesOf second bytes := by
    rw [keptFirst, keptSecond, tuples, slots, tuplesOf_append, tuplesOf_append, goneTuples, List.append_nil]
  have after : tuplesOf (first ++ ⟨false, base + 1, tuple.length⟩ :: second) bytes =
      tuplesOf first bytes ++ tuple :: tuplesOf second bytes := by
    rw [tuplesOf_append, tuplesOf_cons_live rfl, content]
  rw [← keptFirst] at lowKeys
  rw [← keptSecond] at highKeys
  rw [slots] at lengths placed garbage accounting directory available
  simp only [fitLengths_append] at lengths
  have fit : FitLengths (first ++ ⟨false, base + 1, tuple.length⟩ :: second) := by
    rw [fitLengths_append, fitLengths_cons]
    exact ⟨lengths.1.1, ⟨low, high⟩, lengths.2⟩
  simp only [liveBytes_append, deadBytes_append, goneLive, List.length_append, LEAF_PAGE_HEADER_SIZE,
    SLOT_SIZE,
    PAGE_SIZE] at garbage accounting directory available room
  simp only [inserted]
  refine ⟨⟨?_, fit, placed.insert ends (by simp only [PAGE_SIZE]; omega), ?_, ?_, ?_⟩, rfl, rfl, rfl, ?_, ?_⟩
  · simp only [LEAF_PAGE_HEADER_SIZE, SLOT_SIZE, List.length_append, List.length_cons]
    omega
  · simp only [liveBytes_append, liveBytes_cons, Bool.false_eq_true, ite_false, PAGE_SIZE]
    omega
  · simp only [deadBytes_append, deadBytes_cons, Bool.false_eq_true, ite_false]
    omega
  · rw [sortedSlots_iff fit, after]
    rw [before] at sorted
    simp only [List.map_append, List.map_cons, List.pairwise_append, List.pairwise_cons, List.mem_map,
      List.mem_cons]
      at sorted ⊢
    refine ⟨sorted.1, ⟨?_, sorted.2.1⟩, ?_⟩
    · rintro _ ⟨other, member, rfl⟩
      exact Nat.le_of_lt (highKeys other member)
    · rintro _ ⟨other, member, rfl⟩ _ (rfl | ⟨next, inside, rfl⟩)
      · exact lowKeys other member
      · exact sorted.2.2 _ ⟨other, member, rfl⟩ _ ⟨next, inside, rfl⟩
  · exact ⟨first, _, second, rfl, rfl, rfl, rfl, content, before, lowKeys, highKeys⟩
  · simp only [slots, List.length_append, List.length_cons]
    omega

def headerBytes (bufferSize : Nat) : Option Pointer → List Byte
  | none => TupleHeader.encode ⟨0, 0, u32 bufferSize⟩
  | some pointer => pointer.read TUPLE_HEADER_SIZE

@[simp] theorem length_headerBytes (bufferSize : Nat) (defaultTuple : Option Pointer) :
    (headerBytes bufferSize defaultTuple).length = TUPLE_HEADER_SIZE := by
  cases defaultTuple <;> simp [headerBytes, TupleHeader.encode, TUPLE_HEADER_SIZE]

theorem keyOf_append {header rest : List Byte} (length : header.length = TUPLE_HEADER_SIZE) :
    keyOf (header ++ rest) = LittleEndian.decode (rest.take SIZEOF_KEY) := by
  rw [keyOf, List.drop_left' length]

theorem placeTuple_spec (valid : page.Valid) {payloadSize : Nat} {buffer : Pointer} (bufferSize : Nat)
    {key : Nat}
    (defaultTuple : Option Pointer)
    (low : TUPLE_HEADER_SIZE + SIZEOF_KEY ≤ payloadSize) (high : payloadSize ≤ MAX_LEAF_PAGE_DATA - SLOT_SIZE)
    (room : payloadSize + SLOT_SIZE ≤ page.checkAvailableSpace)
    (keyed : LittleEndian.decode (buffer.read SIZEOF_KEY) = key) :
    ∃ result address, page.placeTuple payloadSize buffer bufferSize key defaultTuple =
        (result, ⟨payloadSize - TUPLE_HEADER_SIZE, address⟩) ∧
      Stored page result (headerBytes bufferSize defaultTuple ++
        buffer.read (payloadSize - TUPLE_HEADER_SIZE)) address ∧
      result.freeSpaceEndOffset + 1 = address := by
  have most : MAX_LEAF_PAGE_DATA = 813 := rfl
  have directory := valid.directory
  have accounting := valid.accounting
  have available := valid.availableSpace
  generalize tupleEq : headerBytes bufferSize defaultTuple ++
    buffer.read (payloadSize - TUPLE_HEADER_SIZE) = tuple
  have length : tuple.length = payloadSize := by
    simp only [← tupleEq, List.length_append, length_headerBytes, Pointer.length_read,
      TUPLE_HEADER_SIZE] at low ⊢
    omega
  have keyEq : keyOf tuple = key := by
    rw [← tupleEq, keyOf_append (length_headerBytes _ _), ← keyed, Pointer.read, Pointer.read,
      Memory.take_read]
    simp only [TUPLE_HEADER_SIZE, SIZEOF_KEY] at low ⊢
    omega
  simp only [TUPLE_HEADER_SIZE, SIZEOF_KEY, SLOT_SIZE, most] at low high room
  simp only [LEAF_PAGE_HEADER_SIZE, SLOT_SIZE, PAGE_SIZE] at directory accounting available
  obtain ⟨base, ends⟩ : ∃ base, base + payloadSize = page.freeSpaceEndOffset :=
    ⟨page.freeSpaceEndOffset - payloadSize, by omega⟩
  have offset : u16 (page.freeSpaceEndOffset - payloadSize + 1 : Int) = base + 1 :=
    u16_eq (by omega) (by omega)
  have next : u16 ((base + 1 : Nat) - 1 : Int) = base := u16_eq (by omega) (by omega)
  have written : u16 (payloadSize - (13 : Nat) : Int) = payloadSize - 13 := u16_eq (by omega) (by omega)
  simp only [placeTuple, TUPLE_HEADER_SIZE, offset, next, written]
  refine ⟨_, _, rfl, ?_, rfl⟩
  rw [← keyEq, ← length]
  apply valid.store (by simp only [TUPLE_HEADER_SIZE, SIZEOF_KEY]; omega)
    (by simp only [most, SLOT_SIZE]; omega)
    (by simp only [SLOT_SIZE]; omega) (by omega)
  · intro i above
    simp only [Memory.copy]
    rw [if_neg (by omega), if_neg (by omega)]
  · have cut : tuple.length = 13 + (tuple.length - 13) := by omega
    generalize memory : Memory.copy _ (base + 1) _ _ 13 = bytes
    conv_lhs => rw [cut, Memory.read_add, ← memory]
    conv_rhs => rw [← tupleEq]
    refine congrArg₂ (· ++ ·) ?_ ?_
    · rw [Memory.read_copy_same]
      cases defaultTuple with
      | none => exact Memory.read_ofList (TupleHeader.encode ⟨0, 0, u32 bufferSize⟩)
      | some pointer => rfl
    · rw [Memory.read_copy_apart _ _ _ _ _ _ _ (by omega), Memory.read_copy_same, length]
      rfl

/-! ### Writing a chunk -/

def chunkSize (page : LeafPage) (bufferSize : Nat) : Nat :=
  min (min (SLOT_SIZE + TUPLE_HEADER_SIZE + bufferSize) MAX_LEAF_PAGE_DATA)
    (page.checkAvailableSpace + page.checkGarbageBytes) - SLOT_SIZE - TUPLE_HEADER_SIZE

/-- The room `FindPageToWrite` leaves to a buffer. -/
def HasRoom (page : LeafPage) (bufferSize : Nat) : Prop :=
  min MIN_LEAF_PAGE_DATA (SLOT_SIZE + TUPLE_HEADER_SIZE + bufferSize) ≤ page.checkAvailableSpace +
    page.checkGarbageBytes

instance (page : LeafPage) (bufferSize : Nat) : Decidable (page.HasRoom bufferSize) :=
  inferInstanceAs (Decidable (_ ≤ _))

theorem Stored.ofDefragmented {result : LeafPage} {tuple : List Byte} {address : Nat} (valid : page.Valid)
    (stored : Stored page.defragmentPage result tuple address) : Stored page result tuple address := by
  obtain ⟨first, element, second, slots, live, start, len, content, split, low, high⟩ := stored.placed
  rw [valid.defragment.tuples_eq] at split
  refine ⟨stored.valid, stored.pageId, stored.leftPid, stored.rightPid,
    ⟨first, element, second, slots, live, start, len, content, split, low, high⟩, ?_⟩
  have fewer := valid.defragment_slots
  have grown := stored.slots
  omega

/-- With the room that was looked for, the chunk is stored and never shorter
than it has to be. -/
theorem writeChunkLeaf_spec (valid : page.Valid) (buffer : Pointer) {bufferSize key : Nat}
    (defaultTuple : Option Pointer)
    (least : SIZEOF_KEY ≤ bufferSize) (most : bufferSize < 4294967296 - SLOT_SIZE - TUPLE_HEADER_SIZE)
    (room : page.HasRoom bufferSize) (keyed : LittleEndian.decode (buffer.read SIZEOF_KEY) = key) :
    ∃ result address, page.writeChunkLeaf buffer bufferSize key defaultTuple =
        (result, ⟨page.chunkSize bufferSize, address⟩) ∧
      Stored page result (headerBytes bufferSize defaultTuple ++
        buffer.read (page.chunkSize bufferSize)) address ∧
      result.freeSpaceEndOffset + 1 = address := by
  have limit : MAX_LEAF_PAGE_DATA = 813 := rfl
  have total := valid.totalSpace
  have compacted := valid.defragment_available
  simp only [HasRoom, chunkSize, SLOT_SIZE, TUPLE_HEADER_SIZE, SIZEOF_KEY, MIN_LEAF_PAGE_DATA,
    LEAF_PAGE_HEADER_SIZE,
    PAGE_SIZE, limit] at least most room total ⊢
  simp only [writeChunkLeaf, SLOT_SIZE, TUPLE_HEADER_SIZE, limit,
    u32_eq (show 5 + 13 + bufferSize < 4294967296 by omega)]
  generalize space : page.checkAvailableSpace + page.checkGarbageBytes = totalSpace at room total compacted ⊢
  generalize size : min (5 + 13 + bufferSize) 813 = dataSize at room total ⊢
  -- The four branches store `min dataSize totalSpace` bytes, slot included.
  have stores : ∀ target : LeafPage, target.Valid → (∀ {result tuple address},
        Stored target result tuple address → Stored page result tuple address) →
      min dataSize totalSpace ≤ target.checkAvailableSpace →
      ∃ result address, target.placeTuple (min dataSize totalSpace - 5) buffer bufferSize key defaultTuple =
          (result, ⟨min dataSize totalSpace - 5 - 13, address⟩) ∧
        Stored page result (headerBytes bufferSize defaultTuple ++
          buffer.read (min dataSize totalSpace - 5 - 13)) address ∧
        result.freeSpaceEndOffset + 1 = address := by
    intro target targetValid back fits
    obtain ⟨result, address, placed, stored, lowest⟩ := placeTuple_spec targetValid bufferSize defaultTuple
      (show TUPLE_HEADER_SIZE + SIZEOF_KEY ≤ min dataSize totalSpace -
        5 by simp only [TUPLE_HEADER_SIZE, SIZEOF_KEY]; omega) (by simp only [limit, SLOT_SIZE]; omega)
      (by simp only [SLOT_SIZE]; omega) keyed
    exact ⟨result, address, placed, back stored, lowest⟩
  split
  next fits =>
    have smaller : min dataSize totalSpace = dataSize := by omega
    have exact : u16 (dataSize - (5 : Nat) : Int) = dataSize - 5 := u16_eq (by omega) (by omega)
    rw [exact]
    rw [smaller] at stores ⊢
    split
    next scattered =>
      exact stores _ valid.defragment.valid (fun stored => stored.ofDefragmented valid) (by omega)
    next contiguous => exact stores _ valid id (by omega)
  next short =>
    have smaller : min dataSize totalSpace = totalSpace := by omega
    have exact : u16 (totalSpace - (5 : Nat) : Int) = totalSpace - 5 := u16_eq (by omega) (by omega)
    rw [exact]
    rw [smaller] at stores ⊢
    split
    next scattered =>
      exact stores _ valid.defragment.valid (fun stored => stored.ofDefragmented valid) (by omega)
    next contiguous => exact stores _ valid id (by omega)

def withOverflow (overflow overflowPage : Nat) (tuple : List Byte) : List Byte :=
  LittleEndian.encode 1 overflow ++ LittleEndian.encode 8 overflowPage ++ tuple.drop 9

theorem length_withOverflow (overflow overflowPage : Nat) {tuple : List Byte} (least : 9 ≤ tuple.length) :
    (withOverflow overflow overflowPage tuple).length = tuple.length := by
  simp [withOverflow]
  omega

theorem keyOf_withOverflow (overflow overflowPage : Nat) (tuple : List Byte) :
    keyOf (withOverflow overflow overflowPage tuple) = keyOf tuple := by
  simp only [keyOf, withOverflow, TUPLE_HEADER_SIZE]
  rw [List.drop_append, List.drop_of_length_le (by simp), List.nil_append, List.drop_drop]
  simp

/-- The address a write returns is that of the new tuple's header, so setting
the overflow fields there touches nothing else. -/
theorem Stored.setOverflowInfo {result : LeafPage} {tuple : List Byte} {address : Nat}
    (stored : Stored page result tuple address) (lowest : result.freeSpaceEndOffset + 1 = address)
    (overflow overflowPage : Nat) :
    Stored page (result.setOverflowInfo address overflow overflowPage)
      (withOverflow overflow overflowPage tuple) address := by
  obtain ⟨first, element, second, slots, live, start, len, content, split, low, high⟩ := stored.placed
  have lengths := stored.valid.lengths
  have placed := stored.valid.placed
  rw [slots] at lengths placed
  have sizes := lengths
  rw [fitLengths_append, fitLengths_cons] at sizes
  have least : 9 ≤ tuple.length := by
    have := sizes.2.1.1
    simp only [TUPLE_HEADER_SIZE, SIZEOF_KEY] at this
    omega
  have sameLength := length_withOverflow overflow overflowPage least
  have apart := List.pairwise_append.mp placed.apart
  -- Every other live tuple starts after the new one.
  have behind : ∀ slot, (slot ∈ first ∨ slot ∈ second) → slot.isDeleted = false →
      address + tuple.length ≤ slot.offset := by
    intro slot member alive
    have inside : slot ∈ first ++ element :: second := by
      rcases member with member | member <;> simp [member]
    have extent := placed.extent slot inside alive
    have size := (lengths slot inside).1
    have separate : Apart slot element ∨ Apart element slot := by
      rcases member with member | member
      · exact .inl (apart.2.2 slot member element (.head _) alive live)
      · exact .inr ((List.pairwise_cons.mp apart.2.1).1 slot member live alive)
    simp only [Apart, start, len, TUPLE_HEADER_SIZE, SIZEOF_KEY] at separate size
    omega
  have kept : ∀ part, (∀ slot ∈ part, slot ∈ first ∨ slot ∈ second) →
      tuplesOf part (result.setOverflowInfo address overflow overflowPage).bytes =
        tuplesOf part result.bytes := by
    intro part inside
    apply tuplesOf_congr
    intro slot member alive
    have := behind slot (inside slot member) alive
    exact Memory.read_copy_apart _ _ _ _ _ _ _ (by omega)
  have keptFirst := kept first fun slot member => .inl member
  have keptSecond := kept second fun slot member => .inr member
  have written : (result.setOverflowInfo address overflow overflowPage).bytes.read address tuple.length =
      withOverflow overflow overflowPage tuple := by
    have cut : tuple.length = 9 + (tuple.length - 9) := by omega
    conv_lhs => rw [cut, Memory.read_add]
    refine congrArg₂ (· ++ ·) ?_ ?_
    · simp only [LeafPage.setOverflowInfo]
      rw [Memory.read_copy_same]
      exact Memory.read_ofList (LittleEndian.encode 1 overflow ++ LittleEndian.encode 8 overflowPage)
    · simp only [LeafPage.setOverflowInfo]
      rw [Memory.read_copy_apart _ _ _ _ _ _ _ (by omega), ← Memory.drop_read _ _ _ _ least, content]
  refine ⟨⟨stored.valid.directory, stored.valid.lengths, stored.valid.placed, stored.valid.accounting,
    stored.valid.garbage, ?_⟩, stored.pageId, stored.leftPid, stored.rightPid, ?_, stored.slots⟩
  · have sorted := stored.valid.keys_sorted
    rw [LeafPage.tuples, slots] at sorted
    have target : (result.setOverflowInfo address overflow overflowPage).slotArray = first ++ element ::
        second :=
      slots
    rw [target, sortedSlots_iff lengths]
    rw [tuplesOf_append, tuplesOf_cons_live live, start, len] at sorted ⊢
    rw [keptFirst, keptSecond, written, List.map_append, List.map_cons, keyOf_withOverflow]
    rwa [content, List.map_append, List.map_cons] at sorted
  · refine ⟨first, element, second, slots, live, start, len.trans sameLength.symm, ?_, ?_, ?_, ?_⟩
    · rw [sameLength, written]
    · rw [keptFirst, keptSecond, split]
    · rw [keptFirst, keyOf_withOverflow]
      exact low
    · rw [keptSecond, keyOf_withOverflow]
      exact high

/-- A tuple that fits is copied from one page to another as it is. -/
theorem copyTuple_spec (valid : page.Valid) (fromPage : LeafPage) {element : SlotArrayElement}
    (least : TUPLE_HEADER_SIZE + SIZEOF_KEY ≤ element.length)
    (most : element.length ≤ MAX_LEAF_PAGE_DATA - SLOT_SIZE)
    (room : element.length + SLOT_SIZE ≤ page.checkAvailableSpace + page.checkGarbageBytes) :
    ∃ address, Stored page (page.copyTuple fromPage element)
      (fromPage.bytes.read element.offset element.length) address := by
  have limit : MAX_LEAF_PAGE_DATA = 813 := rfl
  simp only [TUPLE_HEADER_SIZE, SIZEOF_KEY, SLOT_SIZE, limit] at least most room
  obtain ⟨result, address, written, stored, -⟩ := writeChunkLeaf_spec valid
    ⟨fromPage.bytes, element.offset + TUPLE_HEADER_SIZE⟩ (some ⟨fromPage.bytes, element.offset⟩)
    (show SIZEOF_KEY ≤ element.length -
      TUPLE_HEADER_SIZE by
        simp only [TUPLE_HEADER_SIZE, SIZEOF_KEY]; omega)
          (by simp only [TUPLE_HEADER_SIZE, SLOT_SIZE]; omega)
    (by simp only [HasRoom, TUPLE_HEADER_SIZE, SLOT_SIZE]; omega)
    (show _ = getKeyFromSlotElement fromPage.bytes element from rfl)
  have chunk : page.chunkSize (element.length - TUPLE_HEADER_SIZE) = element.length - TUPLE_HEADER_SIZE := by
    simp only [chunkSize, TUPLE_HEADER_SIZE, SLOT_SIZE, limit]
    omega
  refine ⟨address, ?_⟩
  rw [chunk] at stored
  simp only [copyTuple, written]
  have whole : headerBytes (element.length - TUPLE_HEADER_SIZE) (some ⟨fromPage.bytes, element.offset⟩) ++
      (Pointer.mk fromPage.bytes (element.offset + TUPLE_HEADER_SIZE)).read
        (element.length - TUPLE_HEADER_SIZE) =
      fromPage.bytes.read element.offset element.length := by
    simp only [headerBytes, Pointer.read]
    rw [← Memory.read_add]
    congr 1
    simp only [TUPLE_HEADER_SIZE]
    omega
  rwa [whole] at stored

end Datashil.LeafPage
