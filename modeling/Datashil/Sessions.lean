import Datashil.BufferPool
import Datashil.Library.Along

/-! What users do with the buffer pool, one call after the other. -/

namespace Datashil

inductive Call (α : Type)
  | request (written read : Transfer α) (pid : Nat)
  | allocate (written read : Transfer α)
  | modify (pointer : Nat) (page : α)
  | release (pid : Nat) (isDirty : Bool)

def BufferPool.call {α : Type} (pool : BufferPool α) : Call α → BufferPool α
  | .request written read pid => (pool.requestPage written read pid).2
  | .allocate written read => (pool.allocateNewPage written read).2
  | .modify pointer page => pool.setFrame pointer page
  | .release pid isDirty => (pool.releasePage pid isDirty).2

structure Hold where
  pid : Nat
  pointer : Nat
  deriving DecidableEq, Repr

/-- What a user does while page I/O succeeds. -/
inductive Act (α : Type)
  | request (pid : Nat)
  | allocate
  | modify (hold : Hold) (page : α)
  | release (pid : Nat) (isDirty : Bool)

/-- A pool with what its users know: the outstanding requests, the pages as they have been left by
the last changes, and which pages have changed since their last release as dirty. -/
structure Session (α : Type) where
  pool : BufferPool α
  holds : List Hold
  array : Nat → α
  unmarked : Nat → Bool

namespace Session
variable {α : Type}

def start (storage : Storage α) (frames : Nat → α) : Session α :=
  ⟨.construct storage frames, [], storage.disk, fun _ => false⟩

def pins (session : Session α) (pid : Nat) : Nat := session.holds.countP fun hold => hold.pid = pid

def request (session : Session α) (pid : Nat) : Session α :=
  match session.pool.requestPage .whole .whole pid with
  | (.ok pointer, pool) => { session with pool, holds := ⟨pid, pointer⟩ :: session.holds }
  | (.error _, pool) => { session with pool }

def allocate (session : Session α) : Session α :=
  match session.pool.allocateNewPage .whole .whole with
  | (.ok (pid, pointer), pool) => { session with pool, holds := ⟨pid, pointer⟩ :: session.holds }
  | (.error _, pool) => { session with pool }

def modify (session : Session α) (hold : Hold) (page : α) : Session α :=
  { session with
    pool := session.pool.setFrame hold.pointer page
    array := fun other => if other = hold.pid then page else session.array other
    unmarked := fun other => if other = hold.pid then true else session.unmarked other }

def release (session : Session α) (pid : Nat) (isDirty : Bool) : Session α :=
  { session with
    pool := (session.pool.releasePage pid isDirty).2
    holds := session.holds.eraseP fun hold => hold.pid = pid
    unmarked := fun other => if other = pid ∧ isDirty then false else session.unmarked other }

def step (session : Session α) : Act α → Session α
  | .request pid => session.request pid
  | .allocate => session.allocate
  | .modify hold page => session.modify hold page
  | .release pid isDirty => session.release pid isDirty

def target (session : Session α) : Act α → Option Nat
  | .request pid => some pid
  | .allocate => some session.pool.storage.newPageOffsetIndex
  | _ => none

/-- Only existing requests are released, only requested pages are changed, and no page is requested
too often. The storage manager refuses its own page. -/
def Matched (session : Session α) (act : Act α) : Prop :=
  (∀ pid, session.target act = some pid → pid ≠ STORAGE_MANAGER_META_PAGE_ID ∧ session.pins pid < 65535) ∧
  match act with
  | .modify hold _ => hold ∈ session.holds
  | .release pid _ => 0 < session.pins pid
  | _ => True

end Session
end Datashil
