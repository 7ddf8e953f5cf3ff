import Datashil.InternalPage
import Datashil.LeafPage

/-! Pages of every kind and the store the tree works on. Pages are read and
written through the buffer pool, which is taken to succeed and to return what was
written; which calls are made to it is recorded, so that pins can be accounted
for separately. -/

namespace Datashil
open Library

structure OverflowPage where
  pageId : Nat
  overflow : Nat
  overflowPage : Nat
  bytes : Memory Byte

namespace OverflowPage

def OVERFLOW_INFO_OFFSET : Nat := 9

/-- The address in the status is 0 where the source returns a null pointer. -/
def writeChunkOverflow (page : OverflowPage) (buffer : Pointer) (bufferSize : Nat) :
    OverflowPage × WriteStatus :=
  if bufferSize + OVERFLOW_PAGE_HEADER_SIZE > PAGE_SIZE then
    let writtenSize := PAGE_SIZE - OVERFLOW_PAGE_HEADER_SIZE
    ({ page with bytes := page.bytes.copy OVERFLOW_PAGE_HEADER_SIZE buffer.block buffer.offset writtenSize },
      ⟨writtenSize, OVERFLOW_INFO_OFFSET⟩)
  else
    ({ page with
        overflow := 0
        overflowPage := 0
        bytes := page.bytes.copy OVERFLOW_PAGE_HEADER_SIZE buffer.block buffer.offset bufferSize },
      ⟨u16 bufferSize, 0⟩)

end OverflowPage

/-- `blank` is a page as the allocator leaves it, all zeros. -/
inductive Page
  | blank
  | databaseMeta (magicNumber rootPageId : Nat)
  | internal (page : InternalPage)
  | leaf (page : LeafPage)
  | overflow (page : OverflowPage)

/-- Calls to the buffer pool, and accesses through the pointers it returned. -/
inductive Access
  | request (pid : Nat)
  | release (pid : Nat) (isDirty : Bool)
  | allocate (pid : Nat)
  | read (pid : Nat)
  | write (pid : Nat)
  deriving DecidableEq, Repr

/-- The tree object with all it reaches: the pages and the allocator's counter.
`accesses` is newest first. -/
structure BTree where
  rootPageId : Nat
  pages : Nat → Page
  newPageOffsetIndex : Nat
  accesses : List Access

/-- `depth` and `pageType` never happen on a tree the code has built; the source
would run out of stack or misread a page there. -/
inductive Failure
  | depth
  | pageType (pid : Nat)
  | runtimeError (message : String)
  deriving DecidableEq, Repr

abbrev TreeM := EStateM Failure BTree

namespace BTree

def record (tree : BTree) (access : Access) : BTree := { tree with accesses := access :: tree.accesses }

def setPage (tree : BTree) (pid : Nat) (page : Page) : BTree :=
  { tree with pages := fun other => if other = pid then page else tree.pages other }

def requestPage (pid : Nat) : TreeM Unit := modify fun tree => tree.record (.request pid)

def releasePage (pid : Nat) (isDirty : Bool) : TreeM Unit :=
  modify fun tree => tree.record (.release pid isDirty)

def readPage (pid : Nat) : TreeM Page := fun tree => .ok (tree.pages pid) (tree.record (.read pid))

def writePage (pid : Nat) (page : Page) : TreeM Unit :=
  modify fun tree => (tree.setPage pid page).record (.write pid)

/-- Allocation hands out ids in order and pins the page. -/
def allocateNewPage : TreeM Nat := fun tree =>
  let pid := tree.newPageOffsetIndex
  .ok pid (({ tree with newPageOffsetIndex := pid + 1 }.setPage pid .blank).record
    (.allocate pid) |>.record (.request pid))

def readInternal (pid : Nat) : TreeM InternalPage := do
  match ← readPage pid with
  | .internal page => return page
  | _ => throw (.pageType pid)

def readLeaf (pid : Nat) : TreeM LeafPage := do
  match ← readPage pid with
  | .leaf page => return page
  | _ => throw (.pageType pid)

def readOverflow (pid : Nat) : TreeM OverflowPage := do
  match ← readPage pid with
  | .overflow page => return page
  | _ => throw (.pageType pid)

def readBytes (pid : Nat) : TreeM (Memory Byte) := do
  match ← readPage pid with
  | .leaf page => return page.bytes
  | .overflow page => return page.bytes
  | _ => throw (.pageType pid)

end BTree
end Datashil
