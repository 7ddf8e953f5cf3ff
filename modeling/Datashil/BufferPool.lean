import Datashil.Types

/-! The buffer pool over the storage manager. What a page holds is left open; the
results of `pread` and `pwrite` come from outside. -/

namespace Datashil

def POOL_SIZE : Nat := 1000

inductive PoolErr
  | systemErr
  | fileCorruption
  | diskFullOrTruncated
  | bufferPoolFull
  | allPagesPinned
  | pageNotFoundInBufferPool
  | operationNotAllowed
  deriving DecidableEq, Repr

/-- How a call of `pread` or `pwrite` for one page ends. One that does not move the whole
page may leave anything where it has been writing. -/
inductive Transfer (α : Type)
  | whole
  | short (left : α)
  | failed (left : α)

/-- The database file and the storage manager's counter. `storedIndex` is the copy of the
counter on the storage manager's meta page, which stays out of the pool. -/
structure Storage (α : Type) where
  disk : Nat → α
  storedIndex : Nat
  newPageOffsetIndex : Nat

namespace Storage
variable {α : Type}

def setDisk (storage : Storage α) (pid : Nat) (page : α) : Storage α :=
  { storage with disk := fun other => if other = pid then page else storage.disk other }

/-- The result comes with what is in the buffer afterwards. -/
def readPage (storage : Storage α) (transfer : Transfer α) (pid : Nat) (buffer : α) :
    Except PoolErr Unit × α :=
  if pid = STORAGE_MANAGER_META_PAGE_ID then (.error .operationNotAllowed, buffer)
  else
    match transfer with
    | .whole => (.ok (), storage.disk pid)
    | .short left => (.error .fileCorruption, left)
    | .failed left => (.error .systemErr, left)

def writePage (storage : Storage α) (transfer : Transfer α) (pid : Nat) (buffer : α) :
    Except PoolErr Unit × Storage α :=
  if pid = STORAGE_MANAGER_META_PAGE_ID then (.error .operationNotAllowed, storage)
  else
    match transfer with
    | .whole => (.ok (), storage.setDisk pid buffer)
    | .short left => (.error .diskFullOrTruncated, storage.setDisk pid left)
    | .failed left => (.error .systemErr, storage.setDisk pid left)

def setNewPageOffsetIndex (storage : Storage α) (newOffset : Nat) : Storage α :=
  { storage with storedIndex := newOffset }

/-- The id of a page at the end of the file. Errors on the way are not noticed; the calls are
taken to succeed. -/
def allocateNewPage (storage : Storage α) : Nat × Storage α :=
  let storage := storage.setNewPageOffsetIndex (storage.newPageOffsetIndex + 1)
  (storage.newPageOffsetIndex, { storage with newPageOffsetIndex := storage.newPageOffsetIndex + 1 })

end Storage

structure BufferFrameMeta where
  pageId : Nat
  pinCount : Nat
  isDirty : Bool
  referenceBit : Nat
  isInQueue : Bool
  deriving DecidableEq, Repr

/-- Pages in memory are named by the index of their frame, which is what a pointer into the
pool tells. `freeFrames` has the back of the vector first. -/
structure BufferPool (α : Type) where
  storage : Storage α
  frames : Nat → α
  pageTable : Nat → Option Nat
  freeFrames : List Nat
  unpinnedFrames : List Nat
  bufferPoolMeta : Nat → BufferFrameMeta

namespace BufferPool
variable {α : Type}

def emptyMeta : BufferFrameMeta := ⟨0, 0, false, 0, false⟩

/-- The constructor; nothing is known of the memory. -/
def construct (storage : Storage α) (frames : Nat → α) : BufferPool α :=
  ⟨storage, frames, fun _ => none, (List.range POOL_SIZE).reverse, [], fun _ => emptyMeta⟩

def setMeta (pool : BufferPool α) (index : Nat) (frameMeta : BufferFrameMeta) : BufferPool α :=
  { pool with bufferPoolMeta := fun other => if other = index then frameMeta else pool.bufferPoolMeta other }

def setFrame (pool : BufferPool α) (index : Nat) (page : α) : BufferPool α :=
  { pool with frames := fun other => if other = index then page else pool.frames other }

def setEntry (pool : BufferPool α) (pid : Nat) (entry : Option Nat) : BufferPool α :=
  { pool with pageTable := fun other => if other = pid then entry else pool.pageTable other }

/-- The loop of `findPageToEvict`. The index is that of the last frame looked at, however the
loop ends. -/
def findLoop : (iterations : Nat) → (index : Option Nat) → BufferPool α → Option Nat × BufferPool α
  | 0, index, pool => (index, pool)
  | iterations + 1, index, pool =>
    match pool.unpinnedFrames with
    | [] => (index, pool)
    | front :: rest =>
      let frameMeta := pool.bufferPoolMeta front
      let pool := { pool with unpinnedFrames := rest }
      if frameMeta.pinCount > 0 then findLoop iterations (some front)
        (pool.setMeta front { frameMeta with isInQueue := false })
      else if frameMeta.referenceBit = 1 then
        findLoop iterations (some front)
          { pool.setMeta front { frameMeta with referenceBit := 0 } with unpinnedFrames := rest ++ [front] }
      else (some front, pool)

def findPageToEvict (pool : BufferPool α) : Except PoolErr Nat × BufferPool α :=
  match findLoop (2 * pool.unpinnedFrames.length) none pool with
  | (none, pool) => (.error .allPagesPinned, pool)
  | (some index, pool) => (.ok index, pool)

def evictPage (pool : BufferPool α) (written : Transfer α) (index : Nat) :
    Except PoolErr Nat × BufferPool α :=
  let frameMeta := pool.bufferPoolMeta index
  if frameMeta.isDirty then
    match pool.storage.writePage written frameMeta.pageId (pool.frames index) with
    | (.error err, storage) => (.error err, { pool with storage })
    | (.ok (), storage) =>
      (.ok index, ({ pool with storage }.setEntry frameMeta.pageId none).setMeta index emptyMeta)
  else (.ok index, (pool.setEntry frameMeta.pageId none).setMeta index emptyMeta)

def checkFreeSpace (pool : BufferPool α) : Except PoolErr Nat :=
  match pool.freeFrames with
  | [] => .error .allPagesPinned
  | index :: _ => .ok index

/-- The part of `requestPage` that finds a frame for a page that is not cached. -/
def takeFrame (pool : BufferPool α) (written : Transfer α) : Except PoolErr Nat × BufferPool α :=
  match pool.checkFreeSpace with
  | .error _ =>
    match pool.findPageToEvict with
    | (.error _, pool) => (.error .bufferPoolFull, pool)
    | (.ok pageToEvict, pool) =>
      match pool.evictPage written pageToEvict with
      | (.error _, pool) => (.error .bufferPoolFull, pool)
      | (.ok evictedIndex, pool) => (.ok evictedIndex, pool)
  | .ok index => (.ok index, { pool with freeFrames := pool.freeFrames.tail })

/-- At most one page is written back and one is read. -/
def requestPage (pool : BufferPool α) (written read : Transfer α) (pid : Nat) :
    Except PoolErr Nat × BufferPool α :=
  match pool.pageTable pid with
  | some index =>
    let frameMeta := pool.bufferPoolMeta index
    (.ok index,
      pool.setMeta index { frameMeta with pinCount := u16 (frameMeta.pinCount + 1), referenceBit := 1 })
  | none =>
    match pool.takeFrame written with
    | (.error err, pool) => (.error err, pool)
    | (.ok index, pool) =>
      match pool.storage.readPage read pid (pool.frames index) with
      | (.error _, buffer) => (.error .systemErr, pool.setFrame index buffer)
      | (.ok (), buffer) =>
        (.ok index, ((pool.setFrame index buffer).setMeta index ⟨pid, 1, false, 1, false⟩).setEntry pid
          (some index))

def releasePage (pool : BufferPool α) (pid : Nat) (isDirty : Bool) : Except PoolErr Unit × BufferPool α :=
  match pool.pageTable pid with
  | none => (.error .pageNotFoundInBufferPool, pool)
  | some index =>
    let frameMeta := pool.bufferPoolMeta index
    let pinCount := u16 (frameMeta.pinCount - 1)
    let pushed := pinCount = 0 ∧ !frameMeta.isInQueue
    (.ok (),
      { pool with unpinnedFrames := if pushed then pool.unpinnedFrames ++ [index] else pool.unpinnedFrames }.setMeta
      index
      { frameMeta with
        pinCount
        isInQueue := if pushed then true else frameMeta.isInQueue
        isDirty := if frameMeta.isDirty then true else isDirty })

def allocateNewPage (pool : BufferPool α) (written read : Transfer α) :
    Except PoolErr (Nat × Nat) × BufferPool α :=
  let (pid, storage) := pool.storage.allocateNewPage
  match { pool with storage }.requestPage written read pid with
  | (.error err, pool) => (.error err, pool)
  | (.ok pointer, pool) => (.ok (pid, pointer), pool)

def getTotalPinnedPages (pool : BufferPool α) : Nat :=
  (List.range POOL_SIZE).countP fun index => (pool.bufferPoolMeta index).pinCount > 0

/-- The destructor: dirty pages go to the file, frame by frame. -/
def flush (written : Nat → Transfer α) : (frames : List Nat) → BufferPool α → BufferPool α
  | [], pool => pool
  | index :: frames, pool =>
    let frameMeta := pool.bufferPoolMeta index
    if frameMeta.isDirty then
      let (_, storage) := pool.storage.writePage (written index) frameMeta.pageId (pool.frames index)
      flush written frames ({ pool with storage }.setMeta index { frameMeta with isDirty := false })
    else flush written frames pool

def destroy (written : Nat → Transfer α) (pool : BufferPool α) : Storage α :=
  (pool.flush written (List.range POOL_SIZE)).storage

end BufferPool
end Datashil
