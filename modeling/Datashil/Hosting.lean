import Datashil.History
import Datashil.Sessions

/-! The tree object over the buffer pool, and the database file from one start of the
server to the next. -/

namespace Datashil

/-- The tree object moves along with the pool below it. Every call of the pool succeeds, and what is
found where its pointers lead is the page that the tree object takes it for. -/
inductive Hosted (st : BTree) (session : Session Page) : BTree → Session Page → Prop
  | refl : Hosted st session st session
  | request {st₁ : BTree} {session₁ : Session Page} {pool : BufferPool Page} {pid pointer : Nat}
      (hosted : Hosted st session st₁ session₁)
      (answer : session₁.pool.requestPage .whole .whole pid = (.ok pointer, pool))
      (shows : pool.frames pointer = st₁.pages pid) :
      Hosted st session (st₁.record (.request pid)) (session₁.request pid)
  | allocate {st₁ st₂ : BTree} {session₁ : Session Page} {pool : BufferPool Page} {pid pointer : Nat}
      (hosted : Hosted st session st₁ session₁)
      (allocated : BTree.allocateNewPage st₁ = .ok pid st₂)
      (answer : session₁.pool.allocateNewPage .whole .whole = (.ok (pid, pointer), pool))
      (shows : pool.frames pointer = st₂.pages pid) : Hosted st session st₂ session₁.allocate
  | release {st₁ : BTree} {session₁ : Session Page} {pool : BufferPool Page} {pid : Nat}
      {isDirty : Bool} (hosted : Hosted st session st₁ session₁)
      (answer : session₁.pool.releasePage pid isDirty = (.ok (), pool)) :
      Hosted st session (st₁.record (.release pid isDirty)) (session₁.release pid isDirty)
  | read {st₁ : BTree} {session₁ : Session Page} {hold : Hold} (hosted : Hosted st session st₁ session₁)
      (held : hold ∈ session₁.holds)
      (shows : session₁.pool.frames hold.pointer = st₁.pages hold.pid) :
        Hosted st session (st₁.record (.read hold.pid)) session₁
  | write {st₁ : BTree} {session₁ : Session Page} {hold : Hold} {page : Page}
      (hosted : Hosted st session st₁ session₁)
      (held : hold ∈ session₁.holds) (shows : session₁.pool.frames hold.pointer = st₁.pages hold.pid) :
      Hosted st session ((st₁.setPage hold.pid page).record (.write hold.pid)) (session₁.modify hold page)
  | setRoot {st₁ : BTree} {session₁ : Session Page} {rootPageId : Nat}
      (hosted : Hosted st session st₁ session₁) :
      Hosted st session { st₁ with rootPageId } session₁

/-- `Bootstrap` on an existing file takes the counter from the meta page. -/
def Storage.bootstrap {α : Type} (storage : Storage α) : Storage α :=
  { storage with newPageOffsetIndex := storage.storedIndex }

def Storage.created : Storage Page := ⟨fun _ => .blank, DATABASE_META_PAGE_ID + 1, DATABASE_META_PAGE_ID + 1⟩

/-- The tree object before its constructor has run. -/
def BTree.unopened (storage : Storage Page) : BTree := ⟨0, storage.disk, storage.newPageOffsetIndex, []⟩

/-- The file after the server has been started and stopped again, any number of times. Nothing is
known of the memory that the pool starts with, and writes of the destructor succeed. The ids of all
pages fit into eight bytes. -/
inductive Shutdown : List Usage → Storage Page → Prop
  | created : Shutdown [] .created
  | stopped {usages more : List Usage} {storage : Storage Page} {frames : Nat → Page} {st₀ st : BTree}
      {session : Session Page}
      {results : List (Outcome × List (List Byte))} (shutdown : Shutdown usages storage)
      (constructed : BTree.construct (BTree.unopened storage.bootstrap) = .ok () st₀)
      (returned : BTree.useAll more st₀ = .ok results st)
      (addressable : st.newPageOffsetIndex ≤ 18446744073709551616)
      (hosted : Hosted (BTree.unopened storage.bootstrap)
        (Session.start storage.bootstrap frames) st session) :
      Shutdown (usages ++ more) (session.pool.destroy fun _ => .whole)

end Datashil
