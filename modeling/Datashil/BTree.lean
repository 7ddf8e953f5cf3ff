import Datashil.PayloadStream

/-! The B+ tree over the page store. Recursion follows page ids, so it carries
fuel; the number of pages allocated is always enough. -/

namespace Datashil
open Library

namespace BTree

def setNewRoot (newRootId : Nat) : TreeM Unit := do
  requestPage DATABASE_META_PAGE_ID
  match ← readPage DATABASE_META_PAGE_ID with
  | .databaseMeta magicNumber _ => writePage DATABASE_META_PAGE_ID (.databaseMeta magicNumber newRootId)
  | _ => throw (.pageType DATABASE_META_PAGE_ID)
  releasePage DATABASE_META_PAGE_ID true
  modify fun tree => { tree with rootPageId := newRootId }

/-- The constructor: load the root id of an existing tree, or make an empty root leaf. -/
def construct : TreeM Unit := do
  requestPage DATABASE_META_PAGE_ID
  match ← readPage DATABASE_META_PAGE_ID with
  | .databaseMeta retrievedMagicNumber rootPageId =>
    if retrievedMagicNumber = DATABASE_MAGIC_NUMBER then
      modify fun tree => { tree with rootPageId }
      releasePage DATABASE_META_PAGE_ID false
    else create
  | _ => create
where
  create : TreeM Unit := do
    let pid ← allocateNewPage
    modify fun tree => { tree with rootPageId := pid }
    writePage pid (.leaf (LeafPage.makePage (fun _ => 0) [] (fun _ => 0) pid 0 0))
    releasePage pid true
    writePage DATABASE_META_PAGE_ID (.databaseMeta DATABASE_MAGIC_NUMBER pid)
    releasePage DATABASE_META_PAGE_ID true

/-- A database file right after `Bootstrap` has created it. -/
def bootstrapped : BTree := ⟨0, fun _ => .blank, DATABASE_META_PAGE_ID + 1, []⟩

/-! ### Insertion -/

/-- The report for the parent and the id of the page to write to. -/
def findPageToWrite : Nat → (pid key bufferSize : Nat) → TreeM (SplitReport × Nat)
  | 0, _, _, _ => throw .depth
  | fuel + 1, pid, key, bufferSize => do
    requestPage pid
    match ← readPage pid with
    | .leaf page =>
      let totalSpace := u16 (page.checkAvailableSpace + page.checkGarbageBytes)
      let minEntry := min MIN_LEAF_PAGE_DATA (SLOT_SIZE + TUPLE_HEADER_SIZE + bufferSize)
      if minEntry ≤ totalSpace then return (⟨false, 0, 0⟩, page.pageId)
      else
        let newPid ← allocateNewPage
        let (oldPage, newPage, boundaryKey) := page.handleSplit (fun _ => 0) newPid
        writePage pid (.leaf oldPage)
        writePage newPid (newPage.elim .blank .leaf)
        if key ≥ boundaryKey then
          releasePage page.pageId true
          return (⟨true, newPid, boundaryKey⟩, newPid)
        else
          releasePage newPid true
          return (⟨true, newPid, boundaryKey⟩, page.pageId)
    | .internal page =>
      let childPageId := page.getChildPageId key
      let (report, toWritePage) ← findPageToWrite fuel childPageId key bufferSize
      if report.wasSplit then
        let page ← readInternal pid
        if page.checkSlotAvailable then
          writePage pid (.internal (page.insertKeyValue report.boundaryKey report.newPageId))
          releasePage page.pageId true
          return (⟨false, 0, 0⟩, toWritePage)
        else
          let newPid ← allocateNewPage
          let (oldPage, newPage, boundaryKey) :=
            page.handleSplit (fun _ => 0) report.boundaryKey report.newPageId newPid
          writePage pid (.internal oldPage)
          writePage newPid (.internal newPage)
          releasePage pid true
          releasePage newPid true
          return (⟨true, newPid, boundaryKey⟩, toWritePage)
      else
        releasePage pid false
        return (⟨false, 0, 0⟩, toWritePage)
    | _ => throw (.pageType pid)

def setOverflowInfo (pid address overflow overflowPage : Nat) : TreeM Unit := do
  match ← readPage pid with
  | .leaf page => writePage pid (.leaf (page.setOverflowInfo address overflow overflowPage))
  | .overflow page => writePage pid (.overflow { page with overflow, overflowPage })
  | _ => throw (.pageType pid)

/-- The loop of `Insert` that stores what the leaf did not take; the result is
the page still held. A turn stores at least one byte. -/
def writeOverflowPages : Nat → (toWritePage : Nat) → WriteStatus → Pointer → (bufferSize : Nat) → TreeM Nat
  | 0, toWritePage, _, _, bufferSize => if bufferSize > 0 then throw .depth else return toWritePage
  | fuel + 1, toWritePage, writeStatus, buffer, bufferSize => do
    if bufferSize > 0 then
      let newPid ← allocateNewPage
      writePage newPid (.overflow ⟨newPid, 0, 0, fun _ => 0⟩)
      setOverflowInfo toWritePage writeStatus.overflowInfoStoreAddress 1 newPid
      releasePage toWritePage true
      let newPage ← readOverflow newPid
      let (newPage, writeStatus) := newPage.writeChunkOverflow buffer bufferSize
      writePage newPid (.overflow newPage)
      writeOverflowPages fuel newPid writeStatus (buffer.advance writeStatus.written)
        (bufferSize - writeStatus.written)
    else return toWritePage

def growRoot (report : SplitReport) : TreeM Unit := do
  let newRootId ← allocateNewPage
  let rootPageId := (← get).rootPageId
  writePage newRootId (.internal (InternalPage.makePage (fun _ => 0) (Memory.ofList [report.boundaryKey]) 0
    (Memory.ofList [rootPageId, report.newPageId]) 0 1 newRootId))
  setNewRoot newRootId
  releasePage (← get).rootPageId true

def insert (buffer : List Byte) (key : Nat) : TreeM Bool := do
  let tree ← get
  let (report, toWritePage) ← findPageToWrite tree.newPageOffsetIndex tree.rootPageId key buffer.length
  if report.wasSplit then growRoot report else pure ()
  let leaf ← readLeaf toWritePage
  let (leaf, writeStatus) := leaf.writeChunkLeaf (Pointer.ofBuffer buffer) buffer.length key none
  writePage toWritePage (.leaf leaf)
  let last ← writeOverflowPages buffer.length toWritePage writeStatus
    ((Pointer.ofBuffer buffer).advance writeStatus.written) (buffer.length - writeStatus.written)
  releasePage last true
  return true

/-! ### Search -/

def searchFrom : Nat → (pid key : Nat) → TreeM PayloadStream
  | 0, _, _ => throw .depth
  | fuel + 1, pid, key => do
    requestPage pid
    match ← readPage pid with
    | .internal page =>
      let childPid := page.getChildPageId key
      releasePage pid false
      searchFrom fuel childPid key
    | .leaf page =>
      let result := page.search key
      if !result.found then
        releasePage pid false
        return .empty
      else
        releasePage pid false
        return .make pid result.tupleOffset result.tupleEndOffset result.totalTupleSize result.overflow
          result.overflowPageId
    | _ => return .empty

def search (key : Nat) : TreeM PayloadStream := do
  let tree ← get
  searchFrom tree.newPageOffsetIndex tree.rootPageId key

/-! ### Deletion -/

/-- The report of a step that leaves no underflow behind. -/
def settled (success : Bool) : DeleteStatus := ⟨false, .internalPage, 0, success⟩

/-- The end of `Delete`, reached when neither sibling exists. -/
def fallThrough (pid : Nat) : TreeM DeleteStatus := do
  releasePage pid false
  return settled false

/-- One attempt of an underflown leaf to borrow. `leftPid` and `rightPid` are
the two sides of the key to update. -/
def borrowLeaf (canLend : LeafPage → Nat → BorrowQuery)
    (handleBorrow : LeafPage → LeafPage → BorrowQuery → LeafPage × LeafPage × Nat)
    (pid childPid leftPid rightPid : Nat) (report : DeleteStatus) (siblingPidCheck : Except ErrType Nat)
    (otherwise : TreeM DeleteStatus) : TreeM DeleteStatus :=
  match siblingPidCheck with
  | .error _ => otherwise
  | .ok siblingPid => do
    let needed := u16 ((LEAF_UNDERFLOW_THRESHOLD + 1) - report.currentSize)
    requestPage siblingPid
    let lenderPage ← readLeaf siblingPid
    let borrowQueryReport := canLend lenderPage needed
    if borrowQueryReport.canBorrow then
      requestPage childPid
      let childPage ← readLeaf childPid
      let (childPage, lenderPage, newBoundaryKey) := handleBorrow childPage lenderPage borrowQueryReport
      writePage childPid (.leaf childPage)
      writePage siblingPid (.leaf lenderPage)
      let page ← readInternal pid
      writePage pid (.internal (page.setNewBoundaryKey newBoundaryKey leftPid rightPid))
      releasePage childPid true
      releasePage siblingPid true
      releasePage pid true
      return settled report.success
    else
      releasePage siblingPid false
      otherwise

def mergeLeaves (toPid fromPid : Nat) : TreeM Unit := do
  requestPage toPid
  requestPage fromPid
  let toPage ← readLeaf toPid
  let fromPage ← readLeaf fromPid
  match toPage.mergePages fromPage with
  | .error message => throw (.runtimeError message)
  | .ok merged => writePage toPid (.leaf merged)

/-- Point the leaf right of a merged one back at it. -/
def repairNeighbour (toPid : Nat) : TreeM Unit := do
  let toPage ← readLeaf toPid
  if toPage.rightPid ≠ 0 then
    requestPage toPage.rightPid
    let neighbour ← readLeaf toPage.rightPid
    writePage toPage.rightPid (.leaf { neighbour with leftPid := toPage.pageId })
    releasePage toPage.rightPid true
  else pure ()

def deleteKeyAndChildPtr (pid absorbingPage mergedPage : Nat) : TreeM Unit := do
  let page ← readInternal pid
  writePage pid (.internal (page.deleteKeyAndChildPtr absorbingPage mergedPage))

def releaseAll : List (Nat × Bool) → TreeM Unit
  | [] => pure ()
  | (pid, isDirty) :: rest => do
    releasePage pid isDirty
    releaseAll rest

/-- After a leaf merge: collapse a root that has no key left, or look for
underflow. `stale` is what the local `usedspace` held. -/
def finishLeafMerge (stale pid : Nat) (collapsed kept : List (Nat × Bool)) (success : Bool) :
    TreeM DeleteStatus :=
  do
  let page ← readInternal pid
  if page.pageId = (← get).rootPageId ∧ page.numKeys = 0 then
    setNewRoot (page.getValueAtIndex 0)
    releaseAll collapsed
    return ⟨false, .invalidPage, 0, success⟩
  else
    let (usedspace, underflowHappened) := page.checkUnderflow stale
    releaseAll kept
    return ⟨underflowHappened, .internalPage, usedspace, success⟩

def mergeLeafLeft (stale pid leftPid childPid : Nat) (success : Bool) : TreeM DeleteStatus := do
  mergeLeaves leftPid childPid
  repairNeighbour leftPid
  deleteKeyAndChildPtr pid leftPid childPid
  finishLeafMerge stale pid [(pid, false), (childPid, false), (leftPid, true)]
    [(leftPid, true), (childPid, false), (pid, true)] success

def mergeLeafRight (stale pid childPid rightPid : Nat) (success : Bool) : TreeM DeleteStatus := do
  mergeLeaves childPid rightPid
  deleteKeyAndChildPtr pid childPid rightPid
  repairNeighbour childPid
  finishLeafMerge stale pid [(pid, false), (childPid, true), (rightPid, false)]
    [(childPid, true), (rightPid, false), (pid, true)] success

def repairLeaf (stale pid childPid : Nat) (report : DeleteStatus) : TreeM DeleteStatus := do
  let page ← readInternal pid
  let leftPidCheck := page.getLeafLeftSibling childPid
  let rightPidCheck := page.getLeafRightSibling childPid
  let leftPid := leftPidCheck.toOption.getD 0
  let rightPid := rightPidCheck.toOption.getD 0
  borrowLeaf LeafPage.canLendFromRight LeafPage.handleLeftBorrow pid childPid leftPid childPid report
    leftPidCheck <|
    borrowLeaf LeafPage.canLendFromLeft LeafPage.handleRightBorrow pid childPid childPid rightPid report
      rightPidCheck <|
      match leftPidCheck, rightPidCheck with
      | .ok leftPid, _ => mergeLeafLeft stale pid leftPid childPid report.success
      | .error _, .ok rightPid => mergeLeafRight stale pid childPid rightPid report.success
      | .error _, .error _ => fallThrough pid

def borrowInternal
    (handleBorrow : InternalPage → InternalPage → InternalPage → BorrowQuery →
      InternalPage × InternalPage × InternalPage)
    (pid childPid : Nat) (report : DeleteStatus) (siblingPidCheck : Except ErrType Nat)
    (otherwise : TreeM DeleteStatus) : TreeM DeleteStatus :=
  match siblingPidCheck with
  | .error _ => otherwise
  | .ok siblingPid => do
    let needed := u16 ((INTERNAL_UNDERFLOW_THRESHOLD + 1) - report.currentSize)
    requestPage siblingPid
    let lenderPage ← readInternal siblingPid
    let borrowQueryReport := lenderPage.canLend needed
    if borrowQueryReport.canBorrow then
      requestPage childPid
      let childPage ← readInternal childPid
      let page ← readInternal pid
      let (page, childPage, lenderPage) := handleBorrow page childPage lenderPage borrowQueryReport
      writePage pid (.internal page)
      writePage childPid (.internal childPage)
      writePage siblingPid (.internal lenderPage)
      releasePage siblingPid true
      releasePage childPid true
      releasePage pid true
      return settled report.success
    else
      releasePage siblingPid false
      otherwise

/-- Both directions; a root left without keys is not collapsed here. -/
def mergeInternal (stale pid toPid fromPid : Nat) (success : Bool) : TreeM DeleteStatus := do
  requestPage toPid
  let toPage ← readInternal toPid
  requestPage fromPid
  let fromPage ← readInternal fromPid
  let page ← readInternal pid
  let (page, partitionKey) := page.deletePartitionKeyAndChildPtr toPid fromPid
  writePage pid (.internal page)
  writePage toPid (.internal (InternalPage.mergePages partitionKey toPage fromPage))
  let (usedspace, underflowHappened) := page.checkUnderflow stale
  releasePage toPid true
  releasePage fromPid false
  releasePage pid true
  return ⟨underflowHappened, .internalPage, usedspace, success⟩

def repairInternal (stale pid childPid : Nat) (report : DeleteStatus) : TreeM DeleteStatus := do
  let page ← readInternal pid
  let leftPidCheck := page.getInternalLeftSibling childPid
  let rightPidCheck := page.getInternalRightSibling childPid
  borrowInternal InternalPage.handleLeftBorrow pid childPid report leftPidCheck <|
    borrowInternal InternalPage.handleRightBorrow pid childPid report rightPidCheck <|
      match leftPidCheck, rightPidCheck with
      | .ok leftPid, _ => mergeInternal stale pid leftPid childPid report.success
      | .error _, .ok rightPid => mergeInternal stale pid childPid rightPid report.success
      | .error _, .error _ => fallThrough pid

/-- `stale pid` is what the uninitialised local `usedspace` holds in the
activation on page `pid`. -/
def deleteFrom (stale : Nat → Nat) : Nat → (pid key : Nat) → TreeM DeleteStatus
  | 0, _, _ => throw .depth
  | fuel + 1, pid, key => do
    requestPage pid
    match ← readPage pid with
    | .internal page =>
      let childPid := page.getChildPageId key
      let report ← deleteFrom stale fuel childPid key
      match report.pageType with
      | .invalidPage => return report
      | .leafPage =>
        if report.underflown then repairLeaf (stale pid) pid childPid report
        else
          releasePage pid true
          return settled report.success
      | _ =>
        if report.underflown then repairInternal (stale pid) pid childPid report
        else
          releasePage pid true
          return settled report.success
    | .leaf page =>
      let (page, dirty) := page.deleteTuple key
      if dirty then writePage pid (.leaf page) else pure ()
      let freespace := u16 (page.checkAvailableSpace + page.checkGarbageBytes)
      let usedspace := u16 (PAGE_SIZE - LEAF_PAGE_HEADER_SIZE - freespace)
      releasePage pid dirty
      return ⟨usedspace ≤ LEAF_UNDERFLOW_THRESHOLD, .leafPage, usedspace, dirty⟩
    | _ => throw (.pageType pid)

def delete (stale : Nat → Nat) (key : Nat) : TreeM Bool := do
  let tree ← get
  let deleteResult ← deleteFrom stale tree.newPageOffsetIndex tree.rootPageId key
  return deleteResult.success

end BTree
end Datashil
