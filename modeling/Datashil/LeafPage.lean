import Datashil.Types

/-! Slotted leaf pages. The header and the slot directory are kept as typed
fields, the tuples as bytes addressed by page offset; that the two never meet is
an invariant, proved where the layout is. -/

namespace Datashil
open Library

structure SlotArrayElement where
  isDeleted : Bool
  offset : Nat
  length : Nat
  deriving DecidableEq, Repr

instance : Inhabited SlotArrayElement := ⟨⟨false, 0, 0⟩⟩

structure TupleHeader where
  overflow : Nat
  overflowPage : Nat
  size : Nat
  deriving DecidableEq, Repr

namespace TupleHeader

/-- The packed struct: one byte, eight bytes, four bytes. -/
def encode (header : TupleHeader) : List Byte :=
  LittleEndian.encode 1 header.overflow ++ LittleEndian.encode 8 header.overflowPage ++
    LittleEndian.encode 4 header.size

def decode (bytes : List Byte) : TupleHeader where
  overflow := LittleEndian.decode (bytes.take 1)
  overflowPage := LittleEndian.decode ((bytes.drop 1).take 8)
  size := LittleEndian.decode ((bytes.drop 9).take 4)

end TupleHeader

structure LeafPage where
  pageId : Nat
  freeSpaceEndOffset : Nat
  garbageBytes : Nat
  leftPid : Nat
  rightPid : Nat
  slotArray : List SlotArrayElement
  bytes : Memory Byte

structure SearchResult where
  found : Bool
  tupleOffset : Nat
  tupleEndOffset : Nat
  totalTupleSize : Nat
  overflow : Bool
  overflowPageId : Nat
  deriving DecidableEq, Repr

namespace LeafPage

def checkAvailableSpace (page : LeafPage) : Nat :=
  u16 (page.freeSpaceEndOffset - (LEAF_PAGE_HEADER_SIZE + page.slotArray.length * SLOT_SIZE : Nat) + 1)

def checkGarbageBytes (page : LeafPage) : Nat := page.garbageBytes

def getKeyFromSlotElement (bytes : Memory Byte) (element : SlotArrayElement) : Nat :=
  LittleEndian.decode (bytes.read (element.offset + TUPLE_HEADER_SIZE) SIZEOF_KEY)

/-! ### Searching the slot directory -/

/-- Step over deleted slots; the result is the end of the directory if nothing
else follows. -/
def skipDeleted : List SlotArrayElement → Nat → Nat
  | [], index => index
  | element :: rest, index => if element.isDeleted then skipDeleted rest (index + 1) else index

structure Window where
  l : Int
  r : Int
  ans : Int
  deriving DecidableEq, Repr

/-- The search loop shared by both bounds, which differ only in the comparison
that sends it to the right. -/
def boundLoop (slots : List SlotArrayElement) (bytes : Memory Byte) (goesRight : Nat → Bool) :
    Nat → Window → Window
  | 0, window => window
  | fuel + 1, window =>
    if window.l ≤ window.r then
      let originalMid := i16 (window.l + (window.r - window.l) / 2)
      let mid := skipDeleted (slots.drop originalMid.toNat) originalMid.toNat
      match slots[mid]? with
      | none => boundLoop slots bytes goesRight fuel { window with r := i16 (originalMid - 1) }
      | some element =>
        if goesRight (getKeyFromSlotElement bytes element) then
          boundLoop slots bytes goesRight fuel { window with l := i16 (mid + 1) }
        else boundLoop slots bytes goesRight fuel { window with ans := mid, r := i16 (originalMid - 1) }
    else window

def bound (slots : List SlotArrayElement) (bytes : Memory Byte) (goesRight : Nat → Bool) : Nat :=
  let n := i16 slots.length
  (boundLoop slots bytes goesRight slots.length ⟨0, n - 1, n⟩).ans.toNat

def upperBound (page : LeafPage) (x : Nat) : Nat := bound page.slotArray page.bytes fun key => key ≤ x

def lowerBound (page : LeafPage) (x : Nat) : Nat := bound page.slotArray page.bytes fun key => key < x

def search (page : LeafPage) (key : Nat) : SearchResult :=
  let notFound : SearchResult := ⟨false, 0, 0, 0, false, 0⟩
  match page.slotArray[page.lowerBound key]? with
  | none => notFound
  | some element =>
    let returnedKey := getKeyFromSlotElement page.bytes element
    let tupleHeader := TupleHeader.decode (page.bytes.read element.offset TUPLE_HEADER_SIZE)
    if returnedKey = key then
      { found := true
        tupleOffset := element.offset
        tupleEndOffset := element.offset + element.length
        totalTupleSize := tupleHeader.size
        overflow := 0 < tupleHeader.overflow
        overflowPageId := tupleHeader.overflowPage }
    else notFound

/-! ### Building pages -/

/-- The copying loop of `makePage`: live tuples go to the end of the page one
below the other, deleted slots are dropped. -/
def compact (buffer : Memory Byte) : List SlotArrayElement → Nat → Memory Byte →
    List SlotArrayElement × Nat × Memory Byte
  | [], freeSpaceEndOffset, bytes => ([], freeSpaceEndOffset, bytes)
  | element :: rest, freeSpaceEndOffset, bytes =>
    if element.isDeleted then compact buffer rest freeSpaceEndOffset bytes
    else
      let offset := u16 (freeSpaceEndOffset - element.length + 1)
      let (slots, finalOffset, finalBytes) := compact buffer rest (u16 (offset - 1))
        (bytes.copy offset buffer element.offset element.length)
      (⟨false, offset, element.length⟩ :: slots, finalOffset, finalBytes)

def makePage (bytes : Memory Byte) (slots : List SlotArrayElement) (buffer : Memory Byte)
    (pid leftPid rightPid : Nat) : LeafPage :=
  let (slotArray, freeSpaceEndOffset, bytes) := compact buffer slots (PAGE_SIZE - 1) bytes
  ⟨pid, freeSpaceEndOffset, 0, leftPid, rightPid, slotArray, bytes⟩

def defragmentPage (page : LeafPage) : LeafPage :=
  makePage page.bytes page.slotArray page.bytes page.pageId page.leftPid page.rightPid

def SPLIT_THRESHOLD : Nat := (PAGE_SIZE - LEAF_PAGE_HEADER_SIZE) / 2

/-- The first loop of `handleSplit`: where the new page starts, if the live
tuples seen so far exceed half a page, and how many were seen. -/
def splitScan : List SlotArrayElement → (index consumedSpace liveCount : Nat) → Option Nat × Nat
  | [], _, _, liveCount => (none, liveCount)
  | current :: rest, index, consumedSpace, liveCount =>
    if current.isDeleted then splitScan rest (index + 1) consumedSpace liveCount
    else
      let consumedSpace := u16 (consumedSpace + current.length)
      let liveCount := liveCount + 1
      if consumedSpace > SPLIT_THRESHOLD then (some (skipDeleted rest (index + 1)), liveCount)
      else splitScan rest (index + 1) consumedSpace liveCount

/-- The fallback of `handleSplit`: the slot after the first half of the live ones. -/
def countScan (half : Nat) : List SlotArrayElement → (start cnt : Nat) → Nat
  | [], start, _ => start
  | element :: rest, start, cnt =>
    if element.isDeleted then countScan half rest (start + 1) cnt
    else if cnt + 1 > half then start
    else countScan half rest (start + 1) (cnt + 1)

/-- The slot index at which `handleSplit` cuts, unless no tuple is live. -/
def splitPoint (slots : List SlotArrayElement) : Option Nat :=
  let (found, liveCount) := splitScan slots 0 0 0
  if liveCount = 0 then none
  else
    let start := found.getD 0
    if start = slots.length ∨ start = 0 then some (countScan (liveCount / 2) slots 0 0) else some start

/-- The old page, the new page if there is one, and the boundary key. A page
without a live tuple is left alone, and so is the page allocated for it. -/
def handleSplit (oldPage : LeafPage) (newBytes : Memory Byte) (newPid : Nat) :
    LeafPage × Option LeafPage × Nat :=
  match splitPoint oldPage.slotArray with
  | none => (oldPage, none, 0)
  | some start =>
    (makePage oldPage.bytes (oldPage.slotArray.take start) oldPage.bytes oldPage.pageId oldPage.leftPid
      newPid,
      some (makePage newBytes (oldPage.slotArray.drop start) oldPage.bytes newPid oldPage.pageId
        oldPage.rightPid),
      getKeyFromSlotElement oldPage.bytes (oldPage.slotArray.getD start default))

/-! ### Writing and deleting tuples -/

/-- Put a slot at an upper bound, over the slot before it if that one is deleted. -/
def insertSlot (slots : List SlotArrayElement) (it : Nat) (element : SlotArrayElement) :
    List SlotArrayElement :=
  if it = 0 then slots.insertIdx it element
  else if (slots.getD (it - 1) default).isDeleted then slots.set (it - 1) element
  else slots.insertIdx it element

/-- The part of `writeChunkLeaf` after the amount to store is known. -/
def placeTuple (page : LeafPage) (payloadSize : Nat) (buffer : Pointer) (bufferSize : Nat) (key : Nat)
    (defaultTuple : Option Pointer) : LeafPage × WriteStatus :=
  let offset := u16 (page.freeSpaceEndOffset - payloadSize + 1)
  let bytes := page.bytes.copy (offset + TUPLE_HEADER_SIZE) buffer.block buffer.offset
    (payloadSize - TUPLE_HEADER_SIZE)
  let header := match defaultTuple with
    | none => Pointer.ofBuffer (TupleHeader.encode ⟨0, 0, u32 bufferSize⟩)
    | some header => header
  ({ page with
      slotArray := insertSlot page.slotArray (page.upperBound key) ⟨false, offset, payloadSize⟩
      freeSpaceEndOffset := u16 (offset - 1)
      bytes := bytes.copy offset header.block header.offset TUPLE_HEADER_SIZE },
    ⟨u16 (payloadSize - TUPLE_HEADER_SIZE), offset⟩)

def writeChunkLeaf (page : LeafPage) (buffer : Pointer) (bufferSize : Nat) (key : Nat)
    (defaultTuple : Option Pointer) : LeafPage × WriteStatus :=
  let dataSize := min (u32 (SLOT_SIZE + TUPLE_HEADER_SIZE + bufferSize)) MAX_LEAF_PAGE_DATA
  let availableSpace := page.checkAvailableSpace
  let totalSpace := availableSpace + page.checkGarbageBytes
  if dataSize ≤ totalSpace then
    let page := if dataSize > availableSpace then page.defragmentPage else page
    page.placeTuple (u16 (dataSize - SLOT_SIZE)) buffer bufferSize key defaultTuple
  else
    let page' := if availableSpace < totalSpace then page.defragmentPage else page
    page'.placeTuple (u16 (totalSpace - SLOT_SIZE)) buffer bufferSize key defaultTuple

/-- Setting the overflow flag and page at the address a write status names. -/
def setOverflowInfo (page : LeafPage) (address : Nat) (overflow overflowPage : Nat) : LeafPage :=
  { page with
    bytes := page.bytes.copy address
      (Memory.ofList (LittleEndian.encode 1 overflow ++ LittleEndian.encode 8 overflowPage)) 0 9 }

def discard (page : LeafPage) (index : Nat) (element : SlotArrayElement) : LeafPage :=
  { page with
    slotArray := page.slotArray.set index { element with isDeleted := true }
    garbageBytes := u16 (page.garbageBytes + element.length) }

def deleteTuple (page : LeafPage) (key : Nat) : LeafPage × Bool :=
  let index := page.lowerBound key
  match page.slotArray[index]? with
  | none => (page, false)
  | some element =>
    if getKeyFromSlotElement page.bytes element ≠ key then (page, false)
    else if element.isDeleted then (page, false)
    else (page.discard index element, true)

def getPageFirstKey (page : LeafPage) : Nat :=
  match page.slotArray.find? fun element => !element.isDeleted with
  | none => 0
  | some element => getKeyFromSlotElement page.bytes element

/-- The used space as `BTree::Delete` and both lending checks compute it. -/
def usedSpace (page : LeafPage) : Nat :=
  u16 (PAGE_SIZE - page.checkAvailableSpace - page.checkGarbageBytes - LEAF_PAGE_HEADER_SIZE)

/-! ### Borrowing and merging -/

def canLendScan (needed : Nat) : List SlotArrayElement → (usedspace countSpace brwCount : Nat) → BorrowQuery
  | [], _, _, _ => ⟨false, 0⟩
  | curr :: rest, usedspace, countSpace, brwCount =>
    if needed ≤ countSpace then ⟨false, 0⟩
    else if curr.isDeleted then canLendScan needed rest usedspace countSpace brwCount
    else
      let usedspace := u16 (usedspace - (curr.length + SLOT_SIZE : Nat))
      if usedspace ≤ LEAF_UNDERFLOW_THRESHOLD then ⟨false, 0⟩
      else
        let countSpace := u16 (countSpace + (curr.length + SLOT_SIZE : Nat))
        let brwCount := brwCount + 1
        if countSpace ≥ needed then ⟨true, brwCount⟩
        else canLendScan needed rest usedspace countSpace brwCount

def canLendFromRight (page : LeafPage) (needed : Nat) : BorrowQuery :=
  canLendScan needed page.slotArray.reverse page.usedSpace 0 0

def canLendFromLeft (page : LeafPage) (needed : Nat) : BorrowQuery :=
  canLendScan needed page.slotArray page.usedSpace 0 0

def copyTuple (toPage fromPage : LeafPage) (element : SlotArrayElement) : LeafPage :=
  (toPage.writeChunkLeaf ⟨fromPage.bytes, element.offset + TUPLE_HEADER_SIZE⟩
    (element.length - TUPLE_HEADER_SIZE)
    (getKeyFromSlotElement fromPage.bytes element) (some ⟨fromPage.bytes, element.offset⟩)).1

/-- The borrowing loop, over the lender's slot indices in the order it visits
them: borrower and lender afterwards. -/
def borrowLoop : List Nat → (borrowAmount : Nat) → (borrowerPage lenderPage : LeafPage) → LeafPage × LeafPage
  | [], _, borrowerPage, lenderPage => (borrowerPage, lenderPage)
  | index :: indices, borrowAmount, borrowerPage, lenderPage =>
    if borrowAmount = 0 then (borrowerPage, lenderPage)
    else
      let lenderCurr := lenderPage.slotArray.getD index default
      if lenderCurr.isDeleted then borrowLoop indices borrowAmount borrowerPage lenderPage
      else
        borrowLoop indices (borrowAmount - 1) (borrowerPage.copyTuple lenderPage lenderCurr)
          (lenderPage.discard index lenderCurr)

/-- Borrower, lender and the new boundary key between them. -/
def handleLeftBorrow (borrowerPage lenderPage : LeafPage) (borrowReport : BorrowQuery) :
    LeafPage × LeafPage × Nat :=
  let (borrower, lender) := borrowLoop (List.range lenderPage.slotArray.length).reverse
    borrowReport.borrowAmount
    borrowerPage lenderPage
  (borrower, lender, borrower.getPageFirstKey)

def handleRightBorrow (borrowerPage lenderPage : LeafPage) (borrowReport : BorrowQuery) :
    LeafPage × LeafPage × Nat :=
  let (borrower, lender) := borrowLoop (List.range lenderPage.slotArray.length) borrowReport.borrowAmount
    borrowerPage lenderPage
  (borrower, lender, lender.getPageFirstKey)

def MERGE_ERROR : String := "[FATAL] Trying to merge pages but too much data to put into a page.\n"

def mergeLoop (fromPage : LeafPage) : List SlotArrayElement → LeafPage → Except String LeafPage
  | [], toPage => .ok toPage
  | element :: rest, toPage =>
    if element.isDeleted then mergeLoop fromPage rest toPage
    else
      let freespace := u16 (toPage.checkGarbageBytes + toPage.checkAvailableSpace)
      if freespace < element.length + SLOT_SIZE then .error MERGE_ERROR
      else mergeLoop fromPage rest (toPage.copyTuple fromPage element)

def mergePages (toPage fromPage : LeafPage) : Except String LeafPage :=
  mergeLoop fromPage fromPage.slotArray { toPage with rightPid := fromPage.rightPid }

end LeafPage
end Datashil
