import Datashil.BufferPool

/-! The storage manager and its meta page, byte by byte: page 0 of the database file. The calls of
`pread` and `pwrite` on it may end early or fail; `fstat` is taken to succeed. -/

namespace Datashil
open Library

def STORAGE_MANAGER_MAGIC_NUMBER : Nat := 0x34ABE72C
def MAGIC_NUMBER_SIZE : Nat := 4

def u64 (value : Nat) : Nat := value % 18446744073709551616

/-- A local array for a page. What is in it when it is declared is anything. -/
abbrev PageBuffer := { bytes : List Byte // bytes.length = PAGE_SIZE }

/-- `metaPage` is what the file has of page 0: less than a page, where the file is shorter. -/
structure StorageManager where
  metaPage : List Byte
  newPageOffsetIndex : Nat

namespace StorageManager

def magicNumber (page : List Byte) : Nat := LittleEndian.decode (page.take MAGIC_NUMBER_SIZE)

def pageOffsetIndex (page : List Byte) : Nat := LittleEndian.decode ((page.drop MAGIC_NUMBER_SIZE).take 8)

/-- How many bytes a call of `pread` or `pwrite` moves; it returns -1 for `none`. -/
def transferred (result : Option Nat) : Nat := min (result.getD 0) PAGE_SIZE

def privateReadPage (metaPage : List Byte) (read : Option Nat) (buffer : List Byte) :
    Except PoolErr Unit × List Byte :=
  let byteCount := min (transferred read) metaPage.length
  let buffer := metaPage.take byteCount ++ buffer.drop byteCount
  if read = none then (.error .systemErr, buffer)
  else if byteCount ≠ PAGE_SIZE then (.error .fileCorruption, buffer)
  else (.ok (), buffer)

def privateWritePage (metaPage : List Byte) (written : Option Nat) (buffer : List Byte) :
    Except PoolErr Unit × List Byte :=
  let byteCount := transferred written
  let metaPage := buffer.take byteCount ++ metaPage.drop byteCount
  if written = none then (.error .systemErr, metaPage)
  else if byteCount ≠ PAGE_SIZE then (.error .diskFullOrTruncated, metaPage)
  else (.ok (), metaPage)

/-- A file that is made longer has zeros where nothing was written. -/
def lengthen (metaPage : List Byte) : List Byte := metaPage ++ List.replicate (PAGE_SIZE - metaPage.length) 0

structure Startup where
  magicRead : Option Nat
  magicPage : PageBuffer
  metaWrite : Option Nat
  databaseWrite : Option Nat
  indexRead : Option Nat
  indexPage : PageBuffer

def isDatabaseFile (metaPage : List Byte) (startup : Startup) : Bool :=
  if metaPage.length < PAGE_SIZE then false
  else
    let (_, page) := privateReadPage metaPage startup.magicRead startup.magicPage.1
    magicNumber page = STORAGE_MANAGER_MAGIC_NUMBER

def initialMetaPage : List Byte :=
  LittleEndian.encode MAGIC_NUMBER_SIZE STORAGE_MANAGER_MAGIC_NUMBER ++
    LittleEndian.encode 8 (DATABASE_META_PAGE_ID + 1) ++
    List.replicate (PAGE_SIZE - (MAGIC_NUMBER_SIZE + 8)) 0

/-- The results of all accesses are ignored. Writing page 1 lengthens the file. -/
def bootstrap (metaPage : List Byte) (startup : Startup) : StorageManager :=
  let metaPage :=
    if isDatabaseFile metaPage startup then metaPage
    else
      let (_, metaPage) := privateWritePage metaPage startup.metaWrite initialMetaPage
      if 0 < transferred startup.databaseWrite then lengthen metaPage else metaPage
  let (_, page) := privateReadPage metaPage startup.indexRead startup.indexPage.1
  ⟨metaPage, pageOffsetIndex page⟩

structure Allocation where
  fallocated : Bool
  read : Option Nat
  page : PageBuffer
  written : Option Nat

def setNewPageOffsetIndex (manager : StorageManager) (allocation : Allocation) (newOff : Nat) :
    StorageManager :=
  let (_, page) := privateReadPage manager.metaPage allocation.read allocation.page.1
  let page := page.take MAGIC_NUMBER_SIZE ++ LittleEndian.encode 8 newOff ++ page.drop (MAGIC_NUMBER_SIZE + 8)
  let (_, metaPage) := privateWritePage manager.metaPage allocation.written page
  { manager with metaPage }

/-- The new id; there is no error, whatever fails. -/
def allocateNewPage (manager : StorageManager) (allocation : Allocation) : Nat × StorageManager :=
  let manager := if allocation.fallocated then { manager with metaPage := lengthen manager.metaPage }
    else manager
  let manager := manager.setNewPageOffsetIndex allocation (u64 (manager.newPageOffsetIndex + 1))
  let newPageOffsetIndex := u64 (manager.newPageOffsetIndex + 1)
  (u64 (newPageOffsetIndex + 18446744073709551615), { manager with newPageOffsetIndex })

end StorageManager

/-- A run of the allocator: the storage manager and the ids it has handed out, newest first. -/
structure Allocator where
  manager : StorageManager
  handedOut : List Nat

inductive AllocatorStep
  | allocate (allocation : StorageManager.Allocation)
  | restart (startup : StorageManager.Startup)

namespace Allocator

def create (startup : StorageManager.Startup) : Allocator := ⟨.bootstrap [] startup, []⟩

def step (allocator : Allocator) : AllocatorStep → Allocator
  | .allocate allocation =>
    let (pid, manager) := allocator.manager.allocateNewPage allocation
    ⟨manager, pid :: allocator.handedOut⟩
  | .restart startup => { allocator with manager := .bootstrap allocator.manager.metaPage startup }

end Allocator
end Datashil
