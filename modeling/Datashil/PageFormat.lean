import Datashil.Hosting
import Datashil.Library.Packed
import Datashil.StorageManager

/-! Pages as the bytes they are in a frame and in the file: a packed header, and behind it
a slot array, words, or bytes of tuples. -/

namespace Datashil
open Library

def PageType.value : PageType → Nat
  | metaPage => 1
  | internalPage => 2
  | leafPage => 3
  | overflowPage => 4
  | invalidPage => 5

/-! ### Leaf pages -/

namespace SlotArrayElement

def fields (element : SlotArrayElement) : List Packed.Field :=
  [(1, if element.isDeleted then 1 else 0), (2, element.offset), (2, element.length)]

/-- Any flag above 0 stands for a deleted slot. -/
def decode (block : List Byte) : SlotArrayElement :=
  ⟨0 < Packed.read block 0 1, Packed.read block 1 2, Packed.read block 3 2⟩

end SlotArrayElement

namespace LeafPage

def fields (page : LeafPage) : List Packed.Field :=
  [(1, PageType.leafPage.value), (8, page.pageId), (2, page.freeSpaceEndOffset),
    (2, page.slotArray.length), (2, page.garbageBytes),
    (8, page.leftPid), (8, page.rightPid)]

def slotArrayEnd (page : LeafPage) : Nat := LEAF_PAGE_HEADER_SIZE + page.slotArray.length * SLOT_SIZE

def encode (page : LeafPage) : List Byte :=
  Packed.encode page.fields ++ (page.slotArray.flatMap fun element => Packed.encode element.fields) ++
    page.bytes.read page.slotArrayEnd (PAGE_SIZE - page.slotArrayEnd)

def decode (block : List Byte) : LeafPage where
  pageId := Packed.read block 1 8
  freeSpaceEndOffset := Packed.read block 9 2
  garbageBytes := Packed.read block 13 2
  leftPid := Packed.read block 15 8
  rightPid := Packed.read block 23 8
  slotArray := (List.range (Packed.read block 11 2)).map fun index =>
    .decode (block.drop (LEAF_PAGE_HEADER_SIZE + index * SLOT_SIZE))
  bytes := Memory.ofList block

end LeafPage

/-! ### Internal pages -/

namespace InternalPage

/-- The keys and the children behind them. -/
def WORDS : Nat := NUM_KEY_SLOTS + NUM_CHILD_PAGEID_SLOTS

def fields (page : InternalPage) : List Packed.Field :=
  [(1, PageType.internalPage.value), (8, page.pageId), (2, page.numKeys)]

/-- Behind the last child there are thirteen bytes left, which stay what they were before. -/
def encode (page : InternalPage) (before : PageBuffer) : List Byte :=
  Packed.encode page.fields ++ (page.words.read KEYS_START WORDS).flatMap (LittleEndian.encode 8) ++
    before.1.drop (INTERNAL_PAGE_HEADER_SIZE + WORDS * 8)

def decode (block : List Byte) : InternalPage :=
  ⟨Packed.read block 1 8, Packed.read block 9 2, fun index =>
    Packed.read block (INTERNAL_PAGE_HEADER_SIZE + index * 8) 8⟩

end InternalPage

/-! ### Overflow pages -/

namespace OverflowPage

def fields (page : OverflowPage) : List Packed.Field :=
  [(1, PageType.overflowPage.value), (8, page.pageId), (1, page.overflow), (8, page.overflowPage)]

def encode (page : OverflowPage) : List Byte :=
  Packed.encode page.fields ++ page.bytes.read OVERFLOW_PAGE_HEADER_SIZE
    (PAGE_SIZE - OVERFLOW_PAGE_HEADER_SIZE)

def decode (block : List Byte) : OverflowPage :=
  ⟨Packed.read block 1 8, Packed.read block OVERFLOW_INFO_OFFSET 1,
    Packed.read block (OVERFLOW_INFO_OFFSET + 1) 8, Memory.ofList block⟩

end OverflowPage

/-! ### Pages of all kinds -/

namespace Page

def metaFields (magicNumber rootPageId : Nat) : List Packed.Field :=
  [(MAGIC_NUMBER_SIZE, magicNumber), (8, rootPageId)]

/-- The bytes of a page, in a frame with some bytes before. -/
def encode : Page → (before : PageBuffer) → List Byte
  | blank, _ => List.replicate PAGE_SIZE 0
  | databaseMeta magicNumber rootPageId, before =>
    Packed.encode (metaFields magicNumber rootPageId) ++
      before.1.drop (Packed.size (metaFields magicNumber rootPageId))
  | internal page, before => page.encode before
  | leaf page, _ => page.encode
  | overflow page, _ => page.encode

/-- What the tree takes the bytes of a page for. The database meta page is told by its id and its
magic number, all other pages by the first byte of their headers. -/
def decode (pid : Nat) (block : List Byte) : Page :=
  if pid = DATABASE_META_PAGE_ID then
    if Packed.read block 0 MAGIC_NUMBER_SIZE = DATABASE_MAGIC_NUMBER then
      .databaseMeta DATABASE_MAGIC_NUMBER (Packed.read block MAGIC_NUMBER_SIZE 8)
    else .blank
  else if Packed.read block 0 1 = PageType.internalPage.value then .internal (.decode block)
  else if Packed.read block 0 1 = PageType.leafPage.value then .leaf (.decode block)
  else if Packed.read block 0 1 = PageType.overflowPage.value then .overflow (.decode block)
  else .blank

end Page

/-! ### The database file -/

/-- The file: the page of the storage manager, and the blocks of all others. -/
structure DatabaseFile where
  metaPage : List Byte
  blocks : Nat → List Byte

namespace DatabaseFile
open StorageManager

def absent : DatabaseFile := ⟨[], fun _ => []⟩

/-- What the storage manager has to offer once it has been started. -/
def storage (file : DatabaseFile) (startup : Startup) : Storage Page :=
  let manager := StorageManager.bootstrap file.metaPage startup
  ⟨fun pid => .decode pid (file.blocks pid), pageOffsetIndex manager.metaPage, manager.newPageOffsetIndex⟩

/-- The blocks of some pages. The file ends behind the last one. -/
def blocksOf (pages : Nat → Page) (count : Nat) (before : Nat → PageBuffer) (pid : Nat) : List Byte :=
  if pid < count then (pages pid).encode (before pid) else []

/-- The file after some pages have been allocated and all pages have been written. -/
def saved (file : DatabaseFile) (startup : Startup) (allocations : List Allocation)
    (before : Nat → PageBuffer) (storage : Storage Page) :
    DatabaseFile :=
  ⟨(allocations.foldl (fun manager allocation => (manager.allocateNewPage allocation).2)
    (StorageManager.bootstrap file.metaPage startup)).metaPage,
    blocksOf storage.disk storage.storedIndex before⟩

/-- The file of a tree object: its first page counts the pages, and each page of the tree is where
its id says. -/
def WellFormed (file : DatabaseFile) (st : BTree) : Prop :=
  file.metaPage.length = PAGE_SIZE ∧ pageOffsetIndex file.metaPage = st.newPageOffsetIndex ∧
    ∀ pid ∈ st.pids, (file.blocks pid).length = PAGE_SIZE ∧ Packed.read (file.blocks pid) 1 8 = pid

end DatabaseFile

structure StorageManager.Startup.Smooth (startup : StorageManager.Startup) : Prop where
  magicRead : startup.magicRead = some PAGE_SIZE
  metaWrite : startup.metaWrite = some PAGE_SIZE
  databaseWrite : startup.databaseWrite = some PAGE_SIZE
  indexRead : startup.indexRead = some PAGE_SIZE

structure StorageManager.Allocation.Smooth (allocation : StorageManager.Allocation) : Prop where
  read : allocation.read = some PAGE_SIZE
  written : allocation.written = some PAGE_SIZE

/-- The bytes of the file after any number of runs, the first of which has created it. The storage
manager allocates a page whenever the pool does. The counter of pages fits into eight bytes. Bytes
that no page uses are anything. -/
inductive Persisted : List Usage → DatabaseFile → Prop
  | absent : Persisted [] .absent
  | stopped {usages more : List Usage} {file : DatabaseFile} {startup : StorageManager.Startup}
      {allocations : List StorageManager.Allocation}
      {before : Nat → PageBuffer} {frames : Nat → Page} {st₀ st : BTree} {session : Session Page}
      {results : List (Outcome × List (List Byte))}
      (persisted : Persisted usages file) (smooth : startup.Smooth)
      (allocates : ∀ allocation ∈ allocations, allocation.Smooth)
      (constructed : BTree.construct (BTree.unopened (file.storage startup)) = .ok () st₀)
      (returned : BTree.useAll more st₀ = .ok results st)
      (counted : st.newPageOffsetIndex < 18446744073709551616)
      (count : (file.storage startup).newPageOffsetIndex + allocations.length = st.newPageOffsetIndex)
      (hosted : Hosted (BTree.unopened (file.storage startup))
        (Session.start (file.storage startup) frames) st session) :
      Persisted (usages ++ more)
        (file.saved startup allocations before (session.pool.destroy fun _ => .whole))

end Datashil
