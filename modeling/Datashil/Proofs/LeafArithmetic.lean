import Datashil.Proofs.LeafBorrow

/-! The 16-bit arithmetic of leaf pages. Every value the operations assign to a
16-bit variable is listed along the operation's own control flow; on valid pages
none of them wraps. -/

namespace Datashil.LeafPage
open Library

/-- A value that a `uint16_t` holds as it is. -/
def Exact (value : Int) : Prop := 0 ≤ value ∧ value < 65536

def availableSpaceValue (page : LeafPage) : Int :=
  page.freeSpaceEndOffset - (LEAF_PAGE_HEADER_SIZE + page.slotArray.length * SLOT_SIZE : Nat) + 1

def compactValues : List SlotArrayElement → (freeSpaceEndOffset : Nat) → List Int
  | [], _ => []
  | element :: rest, freeSpaceEndOffset =>
    if element.isDeleted then compactValues rest freeSpaceEndOffset
    else
      let offset := u16 (freeSpaceEndOffset - element.length + 1)
      (freeSpaceEndOffset - element.length + 1 : Int) :: (offset - 1 : Int) ::
        compactValues rest (u16 (offset - 1))

def makePageValues (slots : List SlotArrayElement) : List Int := compactValues slots (PAGE_SIZE - 1)

def splitScanValues : List SlotArrayElement → (consumedSpace : Nat) → List Int
  | [], _ => []
  | current :: rest, consumedSpace =>
    if current.isDeleted then splitScanValues rest consumedSpace
    else
      (consumedSpace + current.length : Int) ::
        if u16 (consumedSpace + current.length) > SPLIT_THRESHOLD then []
        else splitScanValues rest (u16 (consumedSpace + current.length))

def splitValues (page : LeafPage) : List Int :=
  page.availableSpaceValue :: (page.checkAvailableSpace + page.checkGarbageBytes : Int) ::
    splitScanValues page.slotArray 0 ++
    (splitPoint page.slotArray).toList.flatMap fun start =>
      makePageValues (page.slotArray.take start) ++ makePageValues (page.slotArray.drop start)

def placeTupleValues (page : LeafPage) (payloadSize : Nat) : List Int :=
  let offset := u16 (page.freeSpaceEndOffset - payloadSize + 1)
  [page.freeSpaceEndOffset - payloadSize + 1, offset - 1, payloadSize - TUPLE_HEADER_SIZE]

def writeChunkValues (page : LeafPage) (bufferSize : Nat) : List Int :=
  let dataSize := min (u32 (SLOT_SIZE + TUPLE_HEADER_SIZE + bufferSize)) MAX_LEAF_PAGE_DATA
  let availableSpace := page.checkAvailableSpace
  let totalSpace := availableSpace + page.checkGarbageBytes
  let stored := if dataSize ≤ totalSpace then dataSize else totalSpace
  -- Both branches defragment when what they store exceeds the contiguous space.
  page.availableSpaceValue :: (stored - SLOT_SIZE : Int) ::
    if stored > availableSpace then makePageValues page.slotArray ++
      page.defragmentPage.placeTupleValues (u16 (stored - SLOT_SIZE))
    else page.placeTupleValues (u16 (stored - SLOT_SIZE))

def discardValues (page : LeafPage) (element : SlotArrayElement) : List Int :=
  [page.garbageBytes + element.length]

def deleteTupleValues (page : LeafPage) (key : Nat) : List Int :=
  page.slotArray[page.lowerBound key]?.toList.flatMap fun element =>
    if getKeyFromSlotElement page.bytes element ≠ key ∨ element.isDeleted then []
      else page.discardValues element

def usedSpaceValues (page : LeafPage) : List Int :=
  [page.availableSpaceValue, PAGE_SIZE - page.checkAvailableSpace - page.checkGarbageBytes -
    LEAF_PAGE_HEADER_SIZE]

def canLendValues (needed : Nat) : List SlotArrayElement → (usedspace countSpace : Nat) → List Int
  | [], _, _ => []
  | curr :: rest, usedspace, countSpace =>
    if needed ≤ countSpace then []
    else if curr.isDeleted then canLendValues needed rest usedspace countSpace
    else
      let remaining := u16 (usedspace - (curr.length + SLOT_SIZE : Nat))
      (usedspace - (curr.length + SLOT_SIZE : Nat) : Int) ::
        if remaining ≤ LEAF_UNDERFLOW_THRESHOLD then []
        else
          let lent := u16 (countSpace + (curr.length + SLOT_SIZE : Nat))
          (countSpace + (curr.length + SLOT_SIZE : Nat) : Int) ::
            if lent ≥ needed then [] else canLendValues needed rest remaining lent

def borrowValues (turns : List (LeafPage × LeafPage × SlotArrayElement)) : List Int :=
  turns.flatMap fun turn =>
    turn.1.writeChunkValues (turn.2.2.length - TUPLE_HEADER_SIZE) ++ turn.2.1.discardValues turn.2.2

def mergeValues (turns : List (LeafPage × SlotArrayElement)) : List Int :=
  turns.flatMap fun turn =>
    (turn.1.checkGarbageBytes + turn.1.checkAvailableSpace : Int) ::
      turn.1.writeChunkValues (turn.2.length - TUPLE_HEADER_SIZE)

/-! ### None of them wraps -/

variable {page : LeafPage}

theorem Valid.availableSpaceValue_exact (valid : page.Valid) : Exact page.availableSpaceValue := by
  have directory := valid.directory
  have accounting := valid.accounting
  simp only [PAGE_SIZE] at accounting
  constructor <;> simp only [availableSpaceValue] <;> omega

theorem compactValues_exact (slots : List SlotArrayElement) (start : Nat) (room : liveBytes slots ≤ start)
    (small : start < PAGE_SIZE) : ∀ value ∈ compactValues slots start, Exact value := by
  induction slots generalizing start with
  | nil => simp [compactValues]
  | cons element rest ih =>
    rw [liveBytes_cons] at room
    simp only [PAGE_SIZE] at small ih
    cases live : element.isDeleted with
    | true =>
      simp only [live, ite_true, Nat.zero_add] at room
      simpa only [compactValues, live, ite_true] using ih start room small
    | false =>
      simp only [live, Bool.false_eq_true, ite_false] at room
      have offset : u16 (start - element.length + 1 : Int) = start - element.length + 1 :=
        u16_eq (by omega) (by omega)
      have next : u16 ((start - element.length + 1 : Nat) - 1 : Int) = start - element.length :=
        u16_eq (by omega) (by omega)
      simp only [compactValues, live, Bool.false_eq_true, ite_false, offset, next, List.mem_cons]
      rintro value (rfl | rfl | member)
      · constructor <;> omega
      · constructor <;> omega
      · exact ih _ (by omega) (by omega) value member

theorem Valid.makePageValues_exact (valid : page.Valid) {slots : List SlotArrayElement}
    (fewer : liveBytes slots ≤ liveBytes page.slotArray) : ∀ value ∈ makePageValues slots, Exact value := by
  have accounting := valid.accounting
  exact compactValues_exact slots _ (by omega) (by simp [PAGE_SIZE])

theorem splitScanValues_exact (slots : List SlotArrayElement) (consumedSpace : Nat)
    (inPage : consumedSpace + liveBytes slots < PAGE_SIZE) :
    ∀ value ∈ splitScanValues slots consumedSpace, Exact value := by
  induction slots generalizing consumedSpace with
  | nil => simp [splitScanValues]
  | cons current rest ih =>
    rw [liveBytes_cons] at inPage
    simp only [PAGE_SIZE] at inPage ih
    cases live : current.isDeleted with
    | true =>
      simp only [live, ite_true, Nat.zero_add] at inPage
      simpa only [splitScanValues, live, ite_true] using ih consumedSpace inPage
    | false =>
      simp only [live, Bool.false_eq_true, ite_false] at inPage
      have exact : u16 (consumedSpace + current.length : Int) = consumedSpace + current.length :=
        u16_eq (by omega) (by omega)
      simp only [splitScanValues, live, Bool.false_eq_true, ite_false, exact, List.mem_cons]
      rintro value (rfl | member)
      · constructor <;> omega
      · split at member
        · simp at member
        · exact ih _ (by omega) value member

theorem Valid.splitValues_exact (valid : page.Valid) : ∀ value ∈ page.splitValues, Exact value := by
  have accounting := valid.accounting
  have total := valid.totalSpace
  simp only [PAGE_SIZE, LEAF_PAGE_HEADER_SIZE] at accounting total
  simp only [splitValues, List.cons_append, List.mem_cons, List.mem_append, List.mem_flatMap]
  rintro value (rfl | rfl | scanned | ⟨start, -, left | right⟩)
  · exact valid.availableSpaceValue_exact
  · constructor <;> omega
  · exact splitScanValues_exact _ _ (by simp only [PAGE_SIZE]; omega) value scanned
  · have cut : liveBytes (page.slotArray.take start ++ page.slotArray.drop start) = _ := liveBytes_append
    rw [List.take_append_drop] at cut
    exact valid.makePageValues_exact (by omega) value left
  · have cut : liveBytes (page.slotArray.take start ++ page.slotArray.drop start) = _ := liveBytes_append
    rw [List.take_append_drop] at cut
    exact valid.makePageValues_exact (by omega) value right

theorem Valid.placeTupleValues_exact (valid : page.Valid) {payloadSize : Nat}
    (least : TUPLE_HEADER_SIZE ≤ payloadSize)
    (room : payloadSize + SLOT_SIZE ≤ page.checkAvailableSpace) :
    ∀ value ∈ page.placeTupleValues payloadSize, Exact value := by
  have accounting := valid.accounting
  have available := valid.availableSpace
  simp only [TUPLE_HEADER_SIZE, SLOT_SIZE, LEAF_PAGE_HEADER_SIZE, PAGE_SIZE] at least room accounting available
  have offset : u16 (page.freeSpaceEndOffset - payloadSize + 1 : Int) = page.freeSpaceEndOffset -
      payloadSize + 1 :=
    u16_eq (by omega) (by omega)
  simp only [placeTupleValues, offset, TUPLE_HEADER_SIZE, List.mem_cons, List.not_mem_nil, or_false]
  rintro value (rfl | rfl | rfl) <;> constructor <;> omega

theorem Valid.writeChunkValues_exact (valid : page.Valid) {bufferSize : Nat} (least : SIZEOF_KEY ≤ bufferSize)
    (most : bufferSize < 4294967296 - SLOT_SIZE - TUPLE_HEADER_SIZE) (room : page.HasRoom bufferSize) :
    ∀ value ∈ page.writeChunkValues bufferSize, Exact value := by
  have limit : MAX_LEAF_PAGE_DATA = 813 := rfl
  have total := valid.totalSpace
  have compacted := valid.defragment_available
  simp only [HasRoom, SLOT_SIZE, TUPLE_HEADER_SIZE, SIZEOF_KEY, MIN_LEAF_PAGE_DATA,
    LEAF_PAGE_HEADER_SIZE, PAGE_SIZE]
    at least most room total
  simp only [writeChunkValues, SLOT_SIZE, TUPLE_HEADER_SIZE, limit,
    u32_eq (show 5 + 13 + bufferSize < 4294967296 by omega)]
  generalize size : min (5 + 13 + bufferSize) 813 = dataSize
  generalize space : page.checkAvailableSpace + page.checkGarbageBytes = totalSpace at room total compacted ⊢
  obtain ⟨stored, amount, low, high⟩ : ∃ stored,
    (if dataSize ≤ totalSpace then dataSize else totalSpace) = stored ∧
      26 ≤ stored ∧ stored ≤ min dataSize totalSpace := by
    refine ⟨_, rfl, ?_⟩
    split <;> omega
  have exact : u16 (stored - (5 : Nat) : Int) = stored - 5 := u16_eq (by omega) (by omega)
  simp only [amount, exact, List.mem_cons]
  rintro value (rfl | rfl | member)
  · exact valid.availableSpaceValue_exact
  · constructor <;> omega
  · split at member
    next scattered =>
      rcases List.mem_append.mp member with member | member
      · exact valid.makePageValues_exact (Nat.le_refl _) value member
      · exact valid.defragment.valid.placeTupleValues_exact (by simp only [TUPLE_HEADER_SIZE]; omega)
          (by simp only [SLOT_SIZE]; omega) value member
    next contiguous =>
      exact valid.placeTupleValues_exact (by simp only [TUPLE_HEADER_SIZE]; omega)
        (by simp only [SLOT_SIZE]; omega)
        value member

theorem Valid.discardValues_exact (valid : page.Valid) {element : SlotArrayElement}
    (member : element ∈ page.slotArray)
    (live : element.isDeleted = false) : ∀ value ∈ page.discardValues element, Exact value := by
  have accounting := valid.accounting
  obtain ⟨first, second, slots⟩ := List.append_of_mem member
  rw [slots] at accounting
  simp only [liveBytes_append, liveBytes_cons, live, Bool.false_eq_true, ite_false, PAGE_SIZE] at accounting
  simp only [discardValues, List.mem_singleton, forall_eq]
  constructor <;> omega

theorem Valid.deleteTupleValues_exact (valid : page.Valid) (key : Nat) :
    ∀ value ∈ page.deleteTupleValues key, Exact value := by
  simp only [deleteTupleValues, List.mem_flatMap, Option.mem_toList]
  rintro value ⟨element, found, member⟩
  split at member
  · simp at member
  next matching =>
    simp only [not_or, Bool.not_eq_true] at matching
    exact valid.discardValues_exact (List.mem_of_getElem? found) matching.2 value member

theorem Valid.usedSpaceValues_exact (valid : page.Valid) : ∀ value ∈ page.usedSpaceValues, Exact value := by
  have total := valid.totalSpace
  simp only [LEAF_PAGE_HEADER_SIZE, PAGE_SIZE] at total
  simp only [usedSpaceValues, LEAF_PAGE_HEADER_SIZE, PAGE_SIZE, List.mem_cons, List.not_mem_nil, or_false]
  rintro value (rfl | rfl)
  · exact valid.availableSpaceValue_exact
  · constructor <;> omega

theorem canLendValues_exact {needed : Nat} (slots : List SlotArrayElement) (usedspace countSpace : Nat)
    (low : liveBytes slots + SLOT_SIZE * slots.length ≤ usedspace)
    (inPage : usedspace + countSpace ≤ PAGE_SIZE - LEAF_PAGE_HEADER_SIZE) :
    ∀ value ∈ canLendValues needed slots usedspace countSpace, Exact value := by
  induction slots generalizing usedspace countSpace with
  | nil => simp [canLendValues]
  | cons curr rest ih =>
    simp only [SLOT_SIZE, PAGE_SIZE, LEAF_PAGE_HEADER_SIZE, List.length_cons, liveBytes_cons] at low inPage ih
    simp only [canLendValues]
    split
    · simp
    cases live : curr.isDeleted with
    | true =>
      simp only [live, ite_true] at low
      simpa using ih usedspace countSpace (by omega) inPage
    | false =>
      simp only [live, Bool.false_eq_true, ite_false] at low
      have exact : u16 (usedspace - (curr.length + 5 : Nat) : Int) = usedspace - (curr.length + 5) :=
        u16_eq (by omega) (by omega)
      have next : u16 (countSpace + (curr.length + 5 : Nat) : Int) = countSpace + (curr.length + 5) :=
        u16_eq (by omega) (by omega)
      simp only [SLOT_SIZE, exact, next, Bool.false_eq_true, ite_false, List.mem_cons]
      rintro value (rfl | member)
      · constructor <;> omega
      split at member
      · simp at member
      rcases List.mem_cons.mp member with rfl | member
      · constructor <;> omega
      split at member
      · simp at member
      · exact ih _ _ (by omega) (by omega) value member

theorem WholeTurn.hasRoom {borrowerPage lenderPage : LeafPage} {element : SlotArrayElement}
    (turn : WholeTurn borrowerPage lenderPage element) :
    borrowerPage.HasRoom (element.length - TUPLE_HEADER_SIZE) := by
  have room := turn.room
  have size := turn.lender.lengths element turn.live.1
  simp only [HasRoom, TUPLE_HEADER_SIZE, SIZEOF_KEY, SLOT_SIZE] at room size ⊢
  omega

theorem WholeTurn.writeChunkValues_exact {borrowerPage lenderPage : LeafPage} {element : SlotArrayElement}
    (turn : WholeTurn borrowerPage lenderPage element) :
    ∀ value ∈ borrowerPage.writeChunkValues (element.length - TUPLE_HEADER_SIZE), Exact value := by
  have limit : MAX_LEAF_PAGE_DATA = 813 := rfl
  have size := turn.lender.lengths element turn.live.1
  simp only [TUPLE_HEADER_SIZE, SIZEOF_KEY, SLOT_SIZE, limit] at size
  exact turn.borrower.writeChunkValues_exact (by simp only [TUPLE_HEADER_SIZE, SIZEOF_KEY]; omega)
    (by simp only [TUPLE_HEADER_SIZE, SLOT_SIZE]; omega) turn.hasRoom

theorem borrowValues_exact {turns : List (LeafPage × LeafPage × SlotArrayElement)}
    (whole : ∀ turn ∈ turns, WholeTurn turn.1 turn.2.1 turn.2.2) :
    ∀ value ∈ borrowValues turns, Exact value := by
  simp only [borrowValues, List.mem_flatMap, List.mem_append]
  rintro value ⟨turn, inside, written | discarded⟩
  · exact (whole turn inside).writeChunkValues_exact value written
  · exact (whole turn inside).lender.discardValues_exact (whole turn inside).live.1
      (whole turn inside).live.2 value discarded

theorem mergeValues_exact {fromPage : LeafPage} {turns : List (LeafPage × SlotArrayElement)}
    (whole : ∀ turn ∈ turns, WholeTurn turn.1 fromPage turn.2) :
    ∀ value ∈ mergeValues turns, Exact value := by
  simp only [mergeValues, List.mem_flatMap, List.mem_cons]
  rintro value ⟨turn, inside, rfl | written⟩
  · have total := (whole turn inside).borrower.totalSpace
    simp only [LEAF_PAGE_HEADER_SIZE, PAGE_SIZE] at total
    constructor <;> omega
  · exact (whole turn inside).writeChunkValues_exact value written

end Datashil.LeafPage
