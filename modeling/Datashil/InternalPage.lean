import Datashil.Library.PartitionPoint
import Datashil.Types

/-! Internal pages. The body is one array of 64-bit words, `NUM_KEY_SLOTS` keys
followed by the child page ids, so that keys written past their slots land on the
children exactly as in the packed page. -/

namespace Datashil
open Library

structure InternalPage where
  pageId : Nat
  numKeys : Nat
  words : Memory Nat

namespace InternalPage

def KEYS_START : Nat := 0

def CHILDREN_START : Nat := KEYS_START + NUM_KEY_SLOTS

def keys (page : InternalPage) : List Nat := page.words.read KEYS_START page.numKeys

def children (page : InternalPage) : List Nat := page.words.read CHILDREN_START (page.numKeys + 1)

def checkSlotAvailable (page : InternalPage) : Bool := page.numKeys < NUM_KEY_SLOTS

def getValueAtIndex (page : InternalPage) (index : Nat) : Nat := page.words (CHILDREN_START + index)

/-- `std::upper_bound` over sorted words: the first one above `x`. -/
def upperBound (words : Memory Nat) (start count x : Nat) : Nat :=
  partitionPoint (fun i => words i ≤ x) count start count

/-- `std::lower_bound` over sorted words: the first one not below `x`. -/
def lowerBound (words : Memory Nat) (start count x : Nat) : Nat :=
  partitionPoint (fun i => words i < x) count start count

/-- `std::find` over the children: an index, `numKeys + 1` if the id is not there. -/
def findChild (page : InternalPage) (pid : Nat) : Nat := page.children.idxOf pid

def getChildPageId (page : InternalPage) (key : Nat) : Nat :=
  page.getValueAtIndex (upperBound page.words KEYS_START page.numKeys key - KEYS_START)

def insertKeyValue (page : InternalPage) (boundaryKey newPid : Nat) : InternalPage :=
  let it := upperBound page.words KEYS_START page.numKeys boundaryKey
  let words := page.words.copy (it + 1) page.words it (KEYS_START + page.numKeys - it)
  let words := words.copy it (fun _ => boundaryKey) 0 1
  let insertionIt := CHILDREN_START + (it - KEYS_START + 1)
  let valueEnd := CHILDREN_START + page.numKeys + 1
  let words :=
    if insertionIt ≠ valueEnd then words.copy (insertionIt + 1) words insertionIt
      (valueEnd - insertionIt) else words
  { page with numKeys := page.numKeys + 1, words := words.copy insertionIt (fun _ => newPid) 0 1 }

/-- `words` holds `keysToTake` keys from `keysPtr` and their children from `childrenPtr`. -/
def makePage (words keysPtr : Memory Nat) (keysFrom : Nat) (childrenPtr : Memory Nat)
    (childrenFrom keysToTake pid : Nat) :
    InternalPage :=
  let words := words.copy KEYS_START keysPtr keysFrom keysToTake
  ⟨pid, keysToTake, words.copy CHILDREN_START childrenPtr childrenFrom (keysToTake + 1)⟩

/-- Old page, new page and the boundary key between them. -/
def handleSplit (oldPage : InternalPage) (newWords : Memory Nat)
    (keyToInsert pageIdToInsert newPageId : Nat) :
    InternalPage × InternalPage × Nat :=
  let n := oldPage.numKeys
  let tempKeys : Memory Nat := Memory.copy (fun _ => 0) 0 oldPage.words KEYS_START n
  let tempPtrs : Memory Nat := Memory.copy (fun _ => 0) 0 oldPage.words CHILDREN_START (n + 1)
  let it := upperBound tempKeys 0 n keyToInsert
  let tempKeys := if it ≠ n then tempKeys.copy (it + 1) tempKeys it (n - it) else tempKeys
  let tempKeys := tempKeys.copy it (fun _ => keyToInsert) 0 1
  let insertionIt := it + 1
  let tempPtrs :=
    if insertionIt ≠ n + 1 then tempPtrs.copy (insertionIt + 1) tempPtrs insertionIt
      (n + 1 - insertionIt) else tempPtrs
  let tempPtrs := tempPtrs.copy insertionIt (fun _ => pageIdToInsert) 0 1
  let newKeysLength := n + 1
  let boundary := newKeysLength / 2
  (makePage oldPage.words tempKeys 0 tempPtrs 0 (newKeysLength / 2) oldPage.pageId,
    makePage newWords tempKeys (boundary + 1) tempPtrs (newKeysLength / 2 + 1)
      ((newKeysLength - 1) / 2) newPageId,
    tempKeys boundary)

/-- Both sibling lookups of leaves and of internal pages search alike and differ
in their error codes. -/
def leftSibling (page : InternalPage) (pid : Nat) (missing : ErrType) : Except ErrType Nat :=
  let iter := page.findChild pid
  if iter = page.numKeys + 1 then .error .childPtrNotFound
  else if iter = 0 then .error missing
  else .ok (page.getValueAtIndex (iter - 1))

def rightSibling (page : InternalPage) (pid : Nat) (missing : ErrType) : Except ErrType Nat :=
  let iter := page.findChild pid
  if iter = page.numKeys + 1 then .error .childPtrNotFound
  else if iter = page.numKeys then .error missing
  else .ok (page.getValueAtIndex (iter + 1))

def getLeafLeftSibling (page : InternalPage) (pid : Nat) : Except ErrType Nat :=
  page.leftSibling pid .leftLeafSiblingDoesNotExist

def getLeafRightSibling (page : InternalPage) (pid : Nat) : Except ErrType Nat :=
  page.rightSibling pid .rightLeafSiblingDoesNotExist

def getInternalLeftSibling (page : InternalPage) (pid : Nat) : Except ErrType Nat :=
  page.leftSibling pid .leftInternalSiblingDoesNotExist

def getInternalRightSibling (page : InternalPage) (pid : Nat) : Except ErrType Nat :=
  page.rightSibling pid .rightInternalSiblingDoesNotExist

/-- Word index of the key right of a child. -/
def findKeyFromChildren (page : InternalPage) (leftPid _rightPid : Nat) : Nat :=
  KEYS_START + page.findChild leftPid

def setNewBoundaryKey (page : InternalPage) (newBoundaryKey leftPid rightPid : Nat) : InternalPage :=
  { page with words := page.words.copy (page.findKeyFromChildren leftPid rightPid) (fun _ => newBoundaryKey) 0 1 }

/-- The by-reference argument comes in with whatever the caller's variable held
and is added to, not set. The second component is the result. -/
def checkUnderflow (page : InternalPage) (usedspace : Nat) : Nat × Bool :=
  let usedspace := u16 (usedspace + (page.numKeys * SIZEOF_KEY : Nat) +
    ((page.numKeys + 1) * SIZEOF_PAGE_ID : Nat))
  (usedspace, usedspace ≤ INTERNAL_UNDERFLOW_THRESHOLD)

def checkUsedSpace (page : InternalPage) : Nat :=
  u16 (u16 (page.numKeys * SIZEOF_KEY : Nat) + u16 ((page.numKeys + 1) * SIZEOF_PAGE_ID : Nat))

/-- The comparison is made in `size_t`, where a loss above the used space wraps. -/
def canLend (page : InternalPage) (needed : Nat) : BorrowQuery :=
  let onePairSize := SIZEOF_KEY + SIZEOF_PAGE_ID
  let pairsNeeded := needed / onePairSize + if needed % onePairSize = 0 then 0 else 1
  let sizeLoss := onePairSize * pairsNeeded
  let remaining := ((page.checkUsedSpace : Int) - sizeLoss) % 18446744073709551616
  if remaining ≤ INTERNAL_UNDERFLOW_THRESHOLD then ⟨false, 0⟩ else ⟨true, u16 pairsNeeded⟩

/-- Parent, borrower and lender afterwards. -/
def handleLeftBorrow (page borrowerPage lenderPage : InternalPage) (borrowReport : BorrowQuery) :
    InternalPage × InternalPage × InternalPage :=
  let amount := borrowReport.borrowAmount
  let rotation := page.findKeyFromChildren lenderPage.pageId borrowerPage.pageId
  let n := borrowerPage.numKeys
  let m := lenderPage.numKeys
  let words := borrowerPage.words.copy (KEYS_START + amount) borrowerPage.words KEYS_START n
  let words := words.copy (CHILDREN_START + amount) words CHILDREN_START (n + 1)
  let words := words.copy CHILDREN_START lenderPage.words (CHILDREN_START + (m + 1) - amount) amount
  let words := words.copy (KEYS_START + (amount - 1)) page.words rotation 1
  let words := words.copy KEYS_START lenderPage.words (KEYS_START + m - amount + 1) (amount - 1)
  ({ page with words := page.words.copy rotation lenderPage.words (KEYS_START + m - amount) 1 },
    { borrowerPage with numKeys := n + amount, words },
    { lenderPage with numKeys := m - amount })

def handleRightBorrow (page borrowerPage lenderPage : InternalPage) (borrowReport : BorrowQuery) :
    InternalPage × InternalPage × InternalPage :=
  let amount := borrowReport.borrowAmount
  let rotation := page.findKeyFromChildren borrowerPage.pageId lenderPage.pageId
  let n := borrowerPage.numKeys
  let m := lenderPage.numKeys
  let words := borrowerPage.words.copy (CHILDREN_START + (n + 1)) lenderPage.words CHILDREN_START amount
  let lenderWords := lenderPage.words.copy CHILDREN_START lenderPage.words (CHILDREN_START + amount)
    (m + 1 - amount)
  let words := words.copy (KEYS_START + n) page.words rotation 1
  let words := words.copy (KEYS_START + n + 1) lenderWords KEYS_START (amount - 1)
  ({ page with words := page.words.copy rotation lenderWords (KEYS_START + amount - 1) 1 },
    { borrowerPage with numKeys := n + amount, words },
    { lenderPage with
      numKeys := m - amount
      words := lenderWords.copy KEYS_START lenderWords (KEYS_START + amount) (m - amount) })

def mergePages (partitionKey : Nat) (absorberPage absorbeePage : InternalPage) : InternalPage :=
  let n := absorberPage.numKeys
  let m := absorbeePage.numKeys
  let words := absorberPage.words.copy (KEYS_START + n) (fun _ => partitionKey) 0 1
  let words := words.copy (KEYS_START + n + 1) absorbeePage.words KEYS_START m
  { absorberPage with
    numKeys := n + (m + 1)
    words := words.copy (CHILDREN_START + (n + 1)) absorbeePage.words CHILDREN_START (m + 1) }

/-- The page without the key between two children and the right one of them, and that key. -/
def deletePartitionKeyAndChildPtr (page : InternalPage) (leftChildPid _rightChildPid : Nat) :
    InternalPage × Nat :=
  let n := page.numKeys
  let offset := page.findChild leftChildPid
  let iter := CHILDREN_START + offset
  let words := page.words.copy (iter + 1) page.words (iter + 2) (CHILDREN_START + (n + 1) - iter - 2)
  let partitionKey := words (KEYS_START + offset)
  ({ page with
      numKeys := n - 1
      words := words.copy (KEYS_START + offset) words (KEYS_START + offset + 1) (n - offset - 1) },
    partitionKey)

def deleteKeyAndChildPtr (page : InternalPage) (absorbingPage mergedPage : Nat) : InternalPage :=
  let n := page.numKeys
  let key := page.words (page.findKeyFromChildren absorbingPage mergedPage)
  let iterKey := lowerBound page.words KEYS_START n key
  let words :=
    if KEYS_START + n - iterKey > 1 then
      page.words.copy iterKey page.words (iterKey + 1) (KEYS_START + n - iterKey - 1)
    else page.words
  let iterChild := CHILDREN_START + ({ page with words } : InternalPage).findChild mergedPage
  let childEnd := CHILDREN_START + n + 1
  let words :=
    if childEnd - iterChild > 1 then
      words.copy iterChild words (iterChild + 1) (childEnd - iterChild - 1) else words
  { page with numKeys := n - 1, words }

end InternalPage
end Datashil
