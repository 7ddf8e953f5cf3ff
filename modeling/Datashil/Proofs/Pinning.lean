import Datashil.Proofs.PoolInvariant
import Datashil.Sessions

/-! Sessions with the buffer pool. The pin counts are the outstanding requests, and a page
that is requested stays where it is, as long as no request meets a fully pinned pool
whose queue still has an entry. -/

namespace Datashil
open Library BufferPool
variable {α : Type}

namespace BufferPool
variable {pool : BufferPool α}

/-- All frames are pinned, but one that was unpinned before is still in the queue. The search for a
frame takes it out of the queue, finds it pinned, and returns its index nevertheless. -/
def Overcommitted (pool : BufferPool α) : Prop := pool.AllPinned ∧ pool.unpinnedFrames ≠ []

structure RespectsPins (pool : BufferPool α) (result : Except PoolErr Nat) (pool' : BufferPool α) : Prop where
  reused : ∀ index, result = .ok index → (pool.bufferPoolMeta index).pinCount = 0
  served : (pool.freeFrames ≠ [] ∨ ∃ index, pool.Mapped index ∧
    (pool.bufferPoolMeta index).pinCount = 0) → ∃ index, result = .ok index
  full : pool.AllPinned → result = .error .bufferPoolFull ∧ pool'.pageTable = pool.pageTable ∧
    (∀ index, (pool'.bufferPoolMeta index).pinCount = (pool.bufferPoolMeta index).pinCount) ∧
      pool'.frames = pool.frames

/-- A frame that is taken from a pool that is not overcommitted is unpinned. -/
theorem Taking.unpinned {written : Transfer α} {index : Nat} {pool' : BufferPool α}
    (taking : Taking pool written (.ok index, pool'))
    (sound : Sound none pool) (spare : ¬pool.Overcommitted) : (pool.bufferPoolMeta index).pinCount = 0 := by
  cases taking with
  | free free => exact sound.pinCount_free (by rw [free]; exact .head _)
  | reused free found kept => exact found.unpinned
  | stolen all stale cleared kept =>
    refine absurd ⟨all, ?_⟩ spare
    intro queue
    rw [queue] at stale
    cases stale

theorem Taking.taken_of_allPinned {written : Transfer α} {index : Nat} {pool' : BufferPool α}
    (taking : Taking pool written (.ok index, pool'))
    (sound : Sound none pool) (all : pool.AllPinned) : pool.Overcommitted := by
  by_contra spare
  have zero := taking.unpinned sound spare
  cases taking with
  | free free =>
    rw [sound.free_of_allPinned all] at free
    cases free
  | reused free found kept =>
    exact all index ((sound.place index).mpr (.inr (.inl (sound.queued index found.queued)))) zero
  | stolen _ stale cleared kept =>
    exact all index ((sound.place index).mpr
      (.inr (.inl (sound.queued index (List.mem_of_getLast? stale))))) zero

/-- When all writes succeed, only a full pool turns a request down. -/
theorem Taking.full_of_error {err : PoolErr} {pool' : BufferPool α}
    (taking : Taking pool .whole (.error err, pool')) :
    err = .bufferPoolFull ∧ pool' = pool ∧ pool.AllPinned ∧ pool.unpinnedFrames = [] := by
  cases taking with
  | dropped free found dirty cut => exact absurd rfl cut
  | held all stale cleared dirty cut => exact absurd rfl cut
  | full all queue => exact ⟨rfl, rfl, all, queue⟩

theorem Sound.respects_iff (sound : Sound none pool) {pid : Nat}
    (allowed : pid ≠ STORAGE_MANAGER_META_PAGE_ID)
    (away : pool.pageTable pid = none) :
    RespectsPins pool (pool.requestPage .whole .whole pid).1 (pool.requestPage .whole .whole pid).2 ↔
      ¬pool.Overcommitted := by
  have requesting := sound.requesting .whole .whole pid
  cases requested : pool.requestPage .whole .whole pid with
  | mk result pool' =>
    rw [requested] at requesting
    cases requesting with
    | cached here =>
      rw [away] at here
      cases here
    | refused _ taking =>
      obtain ⟨rfl, rfl, all, queue⟩ := taking.full_of_error
      constructor
      · exact fun _ beyond => beyond.2 queue
      · exact fun _ => ⟨nofun, fun spare => absurd all (sound.not_allPinned.mpr spare), fun _ =>
          ⟨rfl, rfl, fun _ => rfl, rfl⟩⟩
    | unread _ taking cut =>
      cases cut with
      | inl first => exact absurd first allowed
      | inr cut => exact absurd rfl cut
    | @loaded index middle _ taking _ whole =>
      constructor
      · intro respects beyond
        cases (respects.full beyond.1).1
      · intro spare
        refine ⟨?_, fun _ => ⟨index, rfl⟩, fun all => absurd (taking.taken_of_allPinned sound all) spare⟩
        intro other same
        cases same
        exact taking.unpinned sound spare

/-! ### What a request keeps -/

theorem Taking.kept {written : Transfer α} {index : Nat} {pool' : BufferPool α}
    (taking : Taking pool written (.ok index, pool'))
    (sound : Sound none pool) (spare : ¬pool.Overcommitted) {pid other : Nat}
    (here : pool.pageTable pid = some other)
    (pinned : (pool.bufferPoolMeta other).pinCount ≠ 0) : pool'.pageTable pid = some other := by
  have zero := taking.unpinned sound spare
  have evicted : ∀ {middle : BufferPool α}, Swept pool middle → pool.Mapped index →
      (middle.evicted index).pageTable pid = some other := by
    intro middle swept ⟨own, there⟩
    rw [swept.evicted_pageTable sound there, if_neg, here]
    intro same
    rw [same, there] at here
    cases here
    exact pinned zero
  cases taking with
  | free free => exact here
  | reused free found kept => exact evicted found.swept (sound.queued index found.queued)
  | stolen all stale cleared kept =>
    exact evicted cleared.swept (sound.queued index (List.mem_of_getLast? stale))

theorem Taking.others {written : Transfer α} {index : Nat} {pool' : BufferPool α}
    (taking : Taking pool written (.ok index, pool'))
    {other : Nat} (away : other ≠ index) :
    (pool'.bufferPoolMeta other).pinCount = (pool.bufferPoolMeta other).pinCount ∧
      (pool'.bufferPoolMeta other).isDirty = (pool.bufferPoolMeta other).isDirty := by
  cases taking with
  | free free => exact ⟨rfl, rfl⟩
  | reused free found kept =>
    rw [evicted_meta_other away]
    exact ⟨found.swept.pinCount other, found.swept.isDirty other⟩
  | stolen all stale cleared kept =>
    rw [evicted_meta_other away]
    exact ⟨cleared.swept.pinCount other, cleared.swept.isDirty other⟩

theorem Taking.frames {written : Transfer α} {index : Nat} {pool' : BufferPool α}
    (taking : Taking pool written (.ok index, pool')) :
    pool'.frames = pool.frames := by
  cases taking with
  | free free => rfl
  | reused free found kept => exact found.swept.frames
  | stolen all stale cleared kept => exact cleared.swept.frames

/-- A page that is not cached afterwards is not cached before, or was in the frame that is taken. -/
theorem Taking.uncached {written : Transfer α} {index : Nat} {pool' : BufferPool α}
    (taking : Taking pool written (.ok index, pool'))
    (sound : Sound none pool) {pid : Nat} (away : pool'.pageTable pid = none) :
    pool.pageTable pid = none ∨ pool.pageTable pid = some index := by
  have evicted : ∀ {middle : BufferPool α}, Swept pool middle → pool.Mapped index →
    (middle.evicted index).pageTable pid = none →
      pool.pageTable pid = none ∨ pool.pageTable pid = some index := by
    intro middle swept ⟨own, there⟩ away
    rw [swept.evicted_pageTable sound there] at away
    split at away
    · rename_i same
      rw [same]
      exact .inr there
    · exact .inl away
  cases taking with
  | free free => exact .inl away
  | reused free found kept => exact evicted found.swept (sound.queued index found.queued) away
  | stolen all stale cleared kept =>
    exact evicted cleared.swept (sound.queued index (List.mem_of_getLast? stale)) away

/-- The file has the changes of the page that has been given up, and is otherwise as before. -/
theorem Taking.disk {index : Nat} {pool' : BufferPool α}
    (taking : Taking pool .whole (.ok index, pool')) (sound : Sound none pool) (pid : Nat) :
    pool'.storage.disk pid =
      if pool.pageTable pid = some index ∧ (pool.bufferPoolMeta index).isDirty then pool.frames index
        else pool.storage.disk pid := by
  have evicted : ∀ {middle : BufferPool α}, Swept pool middle → pool.Mapped index →
    (middle.evicted index).storage.disk pid =
      if pool.pageTable pid = some index ∧ (pool.bufferPoolMeta index).isDirty then pool.frames index
        else pool.storage.disk pid := by
    intro middle swept ⟨own, there⟩
    have same : pool.pageTable pid = some index ↔ pid = own := by
      constructor
      · exact fun here => sound.injective here there
      · intro same
        rw [same, there]
    have storage : (middle.evicted index).storage =
        if (pool.bufferPoolMeta index).isDirty then pool.storage.setDisk own (pool.frames index)
          else pool.storage := by
      rw [BufferPool.evicted, swept.isDirty, swept.pageId, swept.frames, swept.storage, (sound.entry there).1]
      rfl
    simp only [storage, same]
    cases (pool.bufferPoolMeta index).isDirty with
    | false => simp
    | true => simp [Storage.setDisk]
  cases taking with
  | free free =>
    rw [if_neg]
    intro both
    exact sound.unmapped index (by rw [free]; exact .head _) ⟨pid, both.1⟩
  | reused free found kept => exact evicted found.swept (sound.queued index found.queued)
  | stolen all stale cleared kept =>
    exact evicted cleared.swept (sound.queued index (List.mem_of_getLast? stale))

end BufferPool

namespace Session
variable {session : Session α}

structure Consistent (session : Session α) : Prop where
  sound : Sound none session.pool
  pins : ∀ {pid index}, session.pool.pageTable pid = some index →
    (session.pool.bufferPoolMeta index).pinCount = session.pins pid
  bound : ∀ pid, session.pins pid ≤ 65535
  pointer : ∀ hold ∈ session.holds, session.pool.pageTable hold.pid = some hold.pointer

theorem pins_pos {pid : Nat} : 0 < session.pins pid ↔ ∃ hold ∈ session.holds, hold.pid = pid := by
  simp [pins, List.countP_pos_iff]

theorem Consistent.cached (consistent : Consistent session) {pid : Nat} (held : 0 < session.pins pid) :
    ∃ index, session.pool.pageTable pid = some index := by
  obtain ⟨hold, inside, rfl⟩ := pins_pos.mp held
  exact ⟨_, consistent.pointer hold inside⟩

theorem consistent_start (storage : Storage α) (frames : Nat → α) : Consistent (start storage frames) :=
  ⟨sound_construct storage frames, nofun, fun _ => Nat.zero_le _, nofun⟩

/-- No request finds all frames pinned and an entry in the queue. -/
def Uncommitted (session : Session α) (act : Act α) : Prop :=
  session.Matched act ∧
    ∀ pid, session.target act = some pid → session.pool.pageTable pid = none → ¬session.pool.Overcommitted

theorem pins_cons (pool : BufferPool α) (pid pointer other : Nat) :
    ({ session with pool, holds := ⟨pid, pointer⟩ :: session.holds } : Session α).pins other =
      session.pins other + if other = pid then 1 else 0 := by
  simp only [pins, List.countP_cons, decide_eq_true_eq, eq_comm (a := other)]

theorem Consistent.held (consistent : Consistent session) {pool : BufferPool α} {pid pointer : Nat}
    (sound : Sound none pool)
    (entry : pool.pageTable pid = some pointer)
    (count : (pool.bufferPoolMeta pointer).pinCount = session.pins pid + 1)
    (others : ∀ {other index}, pool.pageTable other = some index → other ≠ pid →
      (pool.bufferPoolMeta index).pinCount = session.pins other)
    (stays : ∀ hold ∈ session.holds, pool.pageTable hold.pid = some hold.pointer)
    (room : session.pins pid < 65535) :
    Consistent { session with pool, holds := ⟨pid, pointer⟩ :: session.holds } := by
  refine ⟨sound, ?_, ?_, ?_⟩
  · intro other index found
    rw [pins_cons]
    split
    · rename_i same
      rw [same, entry] at found
      cases found
      rw [count, same]
    · rename_i apart
      exact others found apart
  · intro other
    rw [pins_cons]
    split
    · rename_i same
      rw [same]
      exact room
    · exact consistent.bound other
  · intro hold inside
    cases List.mem_cons.mp inside with
    | inl same =>
      rw [same]
      exact entry
    | inr before => exact stays hold before

theorem Consistent.request (consistent : Consistent session) {pid : Nat}
    (allowed : pid ≠ STORAGE_MANAGER_META_PAGE_ID)
    (room : session.pins pid < 65535)
    (spare : session.pool.pageTable pid = none → ¬session.pool.Overcommitted) :
    Consistent (session.request pid) := by
  have sound := consistent.sound
  have requesting := sound.requesting .whole .whole pid
  rw [Session.request]
  cases requested : session.pool.requestPage .whole .whole pid with
  | mk result pool' =>
    rw [requested] at requesting
    cases requesting with
    | @cached index here =>
      have count := consistent.pins here
      apply consistent.held
      · exact sound.pinned here (by omega)
      · exact here
      · simp only [BufferPool.pinned, setMeta_same, count]
        exact u16_eq (by omega) (by omega)
      · intro other frame found apart
        rw [BufferPool.pinned, setMeta_other]
        · exact consistent.pins found
        · rintro rfl
          exact apart (sound.injective found here)
      · exact consistent.pointer
      · exact room
    | refused away taking =>
      obtain ⟨-, rfl, -, -⟩ := taking.full_of_error
      exact consistent
    | unread away taking cut =>
      cases cut with
      | inl first => exact absurd first allowed
      | inr cut => exact absurd rfl cut
    | @loaded index middle away taking _ whole =>
      have none : session.pins pid = 0 := by
        by_contra some
        obtain ⟨other, found⟩ := consistent.cached (Nat.pos_of_ne_zero some)
        rw [away] at found
        cases found
      have gone : middle.pageTable pid = .none := by
        apply Option.eq_none_iff_forall_ne_some.mpr
        intro other found
        rw [taking.pageTable sound found] at away
        cases away
      have table : ∀ other, (middle.loaded pid index).pageTable other = if other = pid then some index
          else middle.pageTable other :=
        fun _ => rfl
      have unmapped := ((taking.sound sound).apart index rfl).2
      apply consistent.held
      · exact (taking.sound sound).loaded gone allowed
      · rw [table, if_pos rfl]
      · rw [none]
        exact congrArg BufferFrameMeta.pinCount (setMeta_same index _)
      · intro other frame found apart
        rw [table, if_neg apart] at found
        have away : frame ≠ index := by
          rintro rfl
          exact unmapped ⟨other, found⟩
        rw [← consistent.pins (taking.pageTable sound found), ← (taking.others away).1]
        exact congrArg BufferFrameMeta.pinCount (setMeta_other _ away)
      · intro hold inside
        have held : 0 < session.pins hold.pid := pins_pos.mpr ⟨hold, inside, rfl⟩
        have here := consistent.pointer hold inside
        rw [table, if_neg]
        · refine taking.kept sound (spare away) here ?_
          rw [consistent.pins here]
          omega
        · intro same
          rw [same, none] at held
          exact absurd held (Nat.lt_irrefl 0)
      · exact room

/-- A grown file matters only to later requests. -/
theorem allocate_eq : session.allocate =
    { session with pool := { session.pool with storage := session.pool.storage.allocateNewPage.2 } }.request
      session.pool.storage.newPageOffsetIndex := by
  simp only [allocate, Session.request, allocateNewPage, Storage.allocateNewPage,
    Storage.setNewPageOffsetIndex]
  split
  · rename_i found
    split at found
    · cases found
    · rename_i same
      cases found
      rw [same]
  · rename_i found
    split at found
    · rename_i same
      cases found
      rw [same]
    · cases found

theorem pins_release (pid : Nat) (isDirty : Bool) (held : 0 < session.pins pid) (other : Nat) :
    (session.release pid isDirty).pins other = if other = pid then session.pins pid - 1
      else session.pins other := by
  obtain ⟨hold, inside, here⟩ := pins_pos.mp held
  obtain ⟨found, before, after, none, at_pid, parts, erased⟩ :=
    List.exists_of_eraseP (p := fun hold : Hold => decide (hold.pid = pid)) inside (by simpa using here)
  have same : found.pid = pid := by simpa using at_pid
  simp only [pins, Session.release, erased]
  rw [parts]
  simp only [List.countP_append, List.countP_cons, same]
  split
  · rename_i at_other
    subst at_other
    simp
  · rename_i apart
    simp [Ne.symm apart]

theorem Consistent.release (consistent : Consistent session) {pid : Nat} (held : 0 < session.pins pid)
    (isDirty : Bool) :
    Consistent (session.release pid isDirty) := by
  have sound := consistent.sound
  obtain ⟨index, here⟩ := consistent.cached held
  have pool : (session.release pid isDirty).pool = session.pool.released index isDirty := by
    simp only [Session.release, releasePage_cached here]
  have table : (session.release pid isDirty).pool.pageTable = session.pool.pageTable := by rw [pool]; rfl
  constructor
  · rw [pool]
    exact sound.released here isDirty
  · intro other frame found
    rw [table] at found
    rw [pins_release pid isDirty held, pool]
    by_cases same : frame = index
    · subst same
      rw [if_pos (sound.injective found here), ← consistent.pins here]
      simp only [released, setMeta_same]
      have bound := consistent.bound pid
      have count := consistent.pins here
      apply u16_eq
      · omega
      · omega
    · rw [if_neg, released, setMeta_other _ same]
      · exact consistent.pins found
      · rintro rfl
        rw [here] at found
        exact same (Option.some.inj found).symm
  · intro other
    rw [pins_release pid isDirty held]
    have bound := consistent.bound pid
    split
    · omega
    · exact consistent.bound other
  · intro hold inside
    rw [table]
    exact consistent.pointer hold (List.mem_of_mem_eraseP inside)

theorem Consistent.modify (consistent : Consistent session) (hold : Hold) (page : α) :
    Consistent (session.modify hold page) :=
  ⟨consistent.sound.setFrame hold.pointer page, consistent.pins, consistent.bound, consistent.pointer⟩

theorem Consistent.setStorage (consistent : Consistent session) (storage : Storage α) :
    Consistent { session with pool := { session.pool with storage } } :=
  ⟨consistent.sound.setStorage storage, consistent.pins, consistent.bound, consistent.pointer⟩

theorem Consistent.step (consistent : Consistent session) {act : Act α}
    (uncommitted : session.Uncommitted act) :
    Consistent (session.step act) := by
  obtain ⟨⟨fits, matched⟩, spare⟩ := uncommitted
  cases act with
  | request pid => exact consistent.request (fits pid rfl).1 (fits pid rfl).2 (spare pid rfl)
  | allocate =>
    rw [Session.step, allocate_eq]
    exact (consistent.setStorage _).request (fits _ rfl).1 (fits _ rfl).2 (spare _ rfl)
  | modify hold page => exact consistent.modify hold page
  | release pid isDirty => exact consistent.release matched isDirty

def empty : Session Nat := start ⟨fun _ => 0, 2, 2⟩ fun _ => 0

section Full
variable {session : Session Nat}

def fill (count : Nat) : List (Act Nat) := (List.range count).map fun page => .request (page + 1)

/-- The session has requested the pages up to some page once. -/
structure Filled (count : Nat) (session : Session Nat) : Prop where
  consistent : Consistent session
  queue : session.pool.unpinnedFrames = []
  free : session.pool.freeFrames.length + count = POOL_SIZE
  pins : ∀ pid, session.pins pid = if 0 < pid ∧ pid ≤ count then 1 else 0
  uncached : ∀ pid, count < pid → session.pool.pageTable pid = none

theorem filled_zero : Filled 0 empty := by
  refine ⟨consistent_start _ _, rfl, ?_, fun pid => ?_, fun _ _ => rfl⟩
  · simp only [empty, start, construct, List.length_reverse, List.length_range, Nat.add_zero]
  · rw [if_neg (by omega)]
    rfl

theorem Filled.matched {count : Nat} (filled : Filled count session) :
    session.Matched (.request (count + 1)) := by
  refine ⟨?_, trivial⟩
  intro pid same
  cases same
  rw [filled.pins, if_neg (by omega)]
  exact ⟨Nat.succ_ne_zero count, by decide⟩

theorem Filled.spare {count : Nat} (filled : Filled count session) (room : count < POOL_SIZE) :
    session.pool.freeFrames ≠ [] := by
  intro none
  have free := filled.free
  rw [none, List.length_nil] at free
  omega

theorem Filled.request {count : Nat} (filled : Filled count session) (room : count < POOL_SIZE) :
    Filled (count + 1) (session.request (count + 1)) := by
  have sound := filled.consistent.sound
  have spare := filled.spare room
  have away := filled.uncached (count + 1) (Nat.lt_succ_self count)
  have consistent : Consistent (session.request (count + 1)) := by
    apply filled.consistent.request (Nat.succ_ne_zero count)
    · rw [filled.pins, if_neg (by omega)]
      decide
    · exact fun _ beyond => spare (sound.free_of_allPinned beyond.1)
  have requesting := sound.requesting .whole .whole (count + 1)
  rw [Session.request] at consistent ⊢
  cases requested : session.pool.requestPage .whole .whole (count + 1) with
  | mk result pool' =>
    rw [requested] at requesting consistent
    cases requesting with
    | cached here =>
      rw [away] at here
      cases here
    | refused _ taking =>
      obtain ⟨-, -, all, -⟩ := taking.full_of_error
      exact absurd (sound.free_of_allPinned all) spare
    | unread _ taking cut =>
      cases cut with
      | inl first => exact absurd first (Nat.succ_ne_zero count)
      | inr cut => exact absurd rfl cut
    | @loaded index middle _ taking _ whole =>
      cases taking with
      | @free _ rest free =>
        refine ⟨consistent, filled.queue, ?_, ?_, ?_⟩
        · have length := filled.free
          rw [free, List.length_cons] at length
          simp only [BufferPool.loaded]
          exact (Nat.add_right_comm _ _ _).symm.trans length
        · intro pid
          rw [pins_cons, filled.pins]
          split <;> split <;> split <;> omega
        · intro pid later
          have apart : pid ≠ count + 1 := by omega
          simp only [BufferPool.loaded, setEntry, apart, ite_false]
          exact filled.uncached pid (by omega)
      | reused free found kept => exact absurd free spare
      | stolen all stale cleared kept => exact absurd (sound.free_of_allPinned all) spare

theorem Filled.uncommitted {count : Nat} (filled : Filled count session) (room : count < POOL_SIZE) :
    session.Uncommitted (.request (count + 1)) :=
  ⟨filled.matched, fun _ _ _ beyond => filled.spare room (filled.consistent.sound.free_of_allPinned beyond.1)⟩

theorem fill_succ (count : Nat) : fill (count + 1) = fill count ++ [.request (count + 1)] := by
  rw [fill, List.range_succ, List.map_append]
  rfl

theorem filled_fill (count : Nat) (room : count ≤ POOL_SIZE) :
    Filled count ((fill count).foldl step empty) := by
  induction count with
  | zero => exact filled_zero
  | succ count ih =>
    rw [fill_succ, List.foldl_append]
    exact (ih (by omega)).request (by omega)

theorem along_fill {allowed : Session Nat → Act Nat → Prop}
    (served : ∀ session count, Filled count session → count < POOL_SIZE →
      allowed session (.request (count + 1)))
    (count : Nat) (room : count ≤ POOL_SIZE) : Along step allowed empty (fill count) := by
  induction count with
  | zero => trivial
  | succ count ih =>
    rw [fill_succ, along_append]
    exact ⟨ih (by omega), served _ count (filled_fill count (by omega)) (by omega), trivial⟩

theorem Filled.modify {count : Nat} (filled : Filled count session) (hold : Hold) (page : Nat) :
    Filled count (session.modify hold page) :=
  ⟨filled.consistent.modify hold page, filled.queue, filled.free, filled.pins, filled.uncached⟩

theorem Filled.one {count : Nat} (filled : Filled count session) (full : count = POOL_SIZE) :
    session.pins 1 = 1 := by
  rw [filled.pins, if_pos]
  rw [full]
  decide

/-- All frames hold pages, all but page 1 are requested, and its frame waits in the queue. -/
structure Vacated (index : Nat) (session : Session Nat) : Prop where
  consistent : Consistent session
  here : session.pool.pageTable 1 = some index
  zero : (session.pool.bufferPoolMeta index).pinCount = 0
  queue : session.pool.unpinnedFrames = [index]
  free : session.pool.freeFrames = []
  pins : ∀ pid, session.pins pid = if 1 < pid ∧ pid ≤ POOL_SIZE then 1 else 0
  uncached : ∀ pid, POOL_SIZE < pid → session.pool.pageTable pid = none

theorem Filled.release {count : Nat} (filled : Filled count session) (full : count = POOL_SIZE)
    (isDirty : Bool) :
    ∃ index, Vacated index (session.release 1 isDirty) ∧
      (session.release 1 isDirty).pool.pageTable = session.pool.pageTable := by
  have one := filled.one full
  have held : 0 < session.pins 1 := by omega
  obtain ⟨index, here⟩ := filled.consistent.cached held
  have released := filled.consistent.release held isDirty
  have pool : (session.release 1 isDirty).pool = session.pool.released index isDirty := by
    simp only [Session.release, releasePage_cached here]
  have unpinned : (session.release 1 isDirty).pins 1 = 0 := by
    rw [pins_release 1 isDirty held, if_pos rfl, one]
  have there : (session.release 1 isDirty).pool.pageTable 1 = some index := by
    rw [pool]
    exact here
  have zero : ((session.release 1 isDirty).pool.bufferPoolMeta index).pinCount = 0 :=
    (released.pins there).trans unpinned
  have queue : (session.release 1 isDirty).pool.unpinnedFrames = [index] := by
    have waiting := released.sound.waiting index ⟨1, there⟩ zero
    rw [pool] at waiting ⊢
    simp only [BufferPool.released, setMeta_unpinnedFrames, filled.queue, List.nil_append] at waiting ⊢
    split at waiting
    · rename_i pushed
      rw [if_pos pushed]
    · cases waiting
  refine ⟨index, ⟨released, there, zero, queue, ?_, ?_, ?_⟩, ?_⟩
  · have length := filled.free
    rw [pool]
    exact List.eq_nil_of_length_eq_zero (by simp only [BufferPool.released, setMeta_freeFrames]; omega)
  · intro pid
    rw [pins_release 1 isDirty held, filled.pins, filled.pins, ← full]
    split <;> split <;> split <;> omega
  · intro pid later
    rw [pool]
    exact filled.uncached pid (full ▸ later)
  · rw [pool]
    rfl

theorem Vacated.request {index : Nat} (vacated : Vacated index session) :
    session.Uncommitted (.request (POOL_SIZE + 1)) ∧
    (session.request (POOL_SIZE + 1)).pool.pageTable 1 = none ∧
    ∀ pid, (session.request (POOL_SIZE + 1)).pins pid = if 1 < pid ∧ pid ≤ POOL_SIZE + 1 then 1 else 0 := by
  have sound := vacated.consistent.sound
  have bound : index < POOL_SIZE := (sound.place index).mpr (.inr (.inl ⟨1, vacated.here⟩))
  have spare : ¬session.pool.AllPinned := fun all => all index bound vacated.zero
  have away := vacated.uncached (POOL_SIZE + 1) (Nat.lt_succ_self _)
  have uncommitted : session.Uncommitted (.request (POOL_SIZE + 1)) := by
    refine ⟨⟨?_, trivial⟩, fun _ _ _ beyond => spare beyond.1⟩
    intro pid same
    cases same
    rw [vacated.pins, if_neg (by omega)]
    exact ⟨Nat.succ_ne_zero _, by decide⟩
  refine ⟨uncommitted, ?_⟩
  have requesting := sound.requesting .whole .whole (POOL_SIZE + 1)
  rw [Session.request]
  cases requested : session.pool.requestPage .whole .whole (POOL_SIZE + 1) with
  | mk result pool' =>
    rw [requested] at requesting
    cases requesting with
    | cached here =>
      rw [away] at here
      cases here
    | refused _ taking =>
      obtain ⟨-, -, all, -⟩ := taking.full_of_error
      exact absurd all spare
    | unread _ taking cut =>
      cases cut with
      | inl first => exact absurd first (Nat.succ_ne_zero _)
      | inr cut => exact absurd rfl cut
    | @loaded victim middle _ taking _ whole =>
      refine ⟨?_, fun pid => ?_⟩
      · cases taking with
        | free free =>
          rw [vacated.free] at free
          cases free
        | @reused _ pool' _ found _ =>
          have same : victim = index := by simpa [vacated.queue] using found.queued
          subst same
          have apart : (1 : Nat) ≠ POOL_SIZE + 1 := by decide
          simp only [BufferPool.loaded, setEntry, apart, ite_false]
          exact (found.swept.evicted_pageTable sound vacated.here 1).trans (if_pos rfl)
        | stolen all stale cleared kept => exact absurd all spare
      · rw [pins_cons, vacated.pins]
        split <;> split <;> split <;> omega

theorem holds_request {hold : Hold} (held : hold ∈ session.holds) (pid : Nat) :
    hold ∈ (session.request pid).holds := by
  rw [Session.request]
  split
  · exact .tail _ held
  · exact held

theorem range_reverse (size : Nat) (positive : 0 < size) :
    (List.range size).reverse = (size - 1) :: (List.range (size - 1)).reverse := by
  obtain ⟨before, rfl⟩ := Nat.exists_eq_succ_of_ne_zero (Nat.ne_of_gt positive)
  rw [Nat.succ_eq_add_one, Nat.add_sub_cancel, List.range_succ, List.reverse_append]
  rfl

theorem request_first : (empty.request 1).holds = [⟨1, POOL_SIZE - 1⟩] := by
  have free : empty.pool.freeFrames = (POOL_SIZE - 1) :: (List.range (POOL_SIZE - 1)).reverse := by
    simp only [empty, start, construct]
    exact range_reverse POOL_SIZE (by decide)
  have away : empty.pool.pageTable 1 = none := rfl
  simp only [Session.request, requestPage, away, takeFrame, checkFreeSpace, free]
  rfl

theorem fill_holds (count : Nat) : ⟨1, POOL_SIZE - 1⟩ ∈ ((fill (count + 1)).foldl step empty).holds := by
  induction count with
  | zero =>
    have none : fill 0 = [] := rfl
    simp only [fill_succ, none, List.nil_append, List.foldl_cons, List.foldl_nil, step, Nat.zero_add,
      request_first, List.mem_singleton]
  | succ count ih =>
    rw [fill_succ, List.foldl_append]
    exact holds_request ih (count + 2)

theorem held_fill {count : Nat} (full : count = POOL_SIZE) :
    ⟨1, POOL_SIZE - 1⟩ ∈ ((fill count).foldl step empty).holds := by
  have positive : count ≠ 0 := by
    rw [full]
    decide
  obtain ⟨before, rfl⟩ := Nat.exists_eq_succ_of_ne_zero positive
  exact fill_holds before

/-- All frames are taken; page 1 changes, its frame goes to the next page, and page 2 is released. -/
def displace (count : Nat) : List (Act Nat) :=
  fill count ++ [.modify ⟨1, POOL_SIZE - 1⟩ 7, .release 1 true, .request (POOL_SIZE + 1), .release 2 false]

theorem release_pageTable (pid : Nat) (isDirty : Bool) :
    (session.release pid isDirty).pool.pageTable = session.pool.pageTable := by
  simp only [Session.release, releasePage]
  split <;> rfl

theorem Filled.displaced {count : Nat} (filled : Filled count session) (full : count = POOL_SIZE)
    (held : ⟨1, POOL_SIZE - 1⟩ ∈ session.holds) :
    Along step Uncommitted session [.modify ⟨1, POOL_SIZE - 1⟩ 7, .release 1 true,
      .request (POOL_SIZE + 1), .release 2 false] ∧
      ((((session.modify ⟨1, POOL_SIZE - 1⟩ 7).release 1 true).request (POOL_SIZE + 1)).release 2
        false).pool.pageTable 1 = none := by
  have changed := filled.modify ⟨1, POOL_SIZE - 1⟩ 7
  obtain ⟨index, vacated, -⟩ := changed.release full true
  obtain ⟨uncommitted, away, pins⟩ := vacated.request
  have one : 0 < (session.modify ⟨1, POOL_SIZE - 1⟩ 7).pins 1 := by
    rw [changed.one full]
    decide
  have two : 0 < (((session.modify ⟨1, POOL_SIZE - 1⟩ 7).release 1 true).request (POOL_SIZE + 1)).pins 2 := by
    rw [pins]
    decide
  refine ⟨⟨⟨⟨nofun, held⟩, nofun⟩, ⟨⟨nofun, one⟩, nofun⟩, uncommitted, ⟨⟨nofun, two⟩, nofun⟩, trivial⟩, ?_⟩
  rw [release_pageTable]
  exact away

theorem displace_spec {count : Nat} (full : count = POOL_SIZE) :
    Along step Uncommitted (start ⟨fun _ => 0, 2, 2⟩ fun _ => 0) (displace count) ∧
      ((displace count).foldl step (start ⟨fun _ => 0, 2, 2⟩ fun _ => 0)).pool.pageTable 1 = none := by
  rw [← empty]
  obtain ⟨along, away⟩ := (filled_fill count (Nat.le_of_eq full)).displaced full (held_fill full)
  rw [displace, along_append, List.foldl_append]
  exact ⟨⟨along_fill (fun _ _ filled room => filled.uncommitted room) count (Nat.le_of_eq full), along⟩, away⟩

end Full

/-- Wherever a session leads in which no request has met an overcommitted pool, pins are respected
exactly if the pool is not overcommitted. -/
theorem respectsPins_iff (storage : Storage α) (frames : Nat → α) (acts : List (Act α))
    (uncommitted : Along step Uncommitted (start storage frames) acts) (pid : Nat)
    (allowed : pid ≠ STORAGE_MANAGER_META_PAGE_ID)
    (away : (acts.foldl step (start storage frames)).pool.pageTable pid = none) :
    let pool := (acts.foldl step (start storage frames)).pool
    RespectsPins pool (pool.requestPage .whole .whole pid).1 (pool.requestPage .whole .whole pid).2 ↔
      ¬pool.Overcommitted := by
  have consistent : Consistent (acts.foldl step (start storage frames)) :=
    Along.invariant (fun _ _ consistent uncommitted => consistent.step uncommitted)
      (consistent_start storage frames) uncommitted
  exact consistent.sound.respects_iff allowed away

theorem respectsPins_iff_displace :
    let pool := ((displace POOL_SIZE).foldl step (start ⟨fun _ => 0, 2, 2⟩ fun _ => 0)).pool
    RespectsPins pool (pool.requestPage .whole .whole 1).1 (pool.requestPage .whole .whole 1).2 ↔
      ¬pool.Overcommitted := by
  -- a run of this length must not be evaluated
  obtain ⟨count, full⟩ : ∃ count, count = POOL_SIZE := ⟨_, rfl⟩
  rw [← full]
  exact respectsPins_iff _ _ (displace count) (displace_spec full).1 1 (by decide) (displace_spec full).2

/-! ### A pinned page that is evicted -/

section Full
variable {session : Session Nat}

/-- Pages are requested, then page 1 is released and requested again. -/
def refill (count : Nat) : List (Act Nat) := fill count ++ [.release 1 false, .request 1]

theorem Filled.overcommitted {count : Nat} (filled : Filled count session) (full : count = POOL_SIZE) :
    let final := (session.release 1 false).request 1
    final.pool.Overcommitted ∧ final.pool.pageTable = session.pool.pageTable ∧ Consistent final ∧
      (session.release 1 false).pins 1 = 0 := by
  obtain ⟨index, vacated, table⟩ := filled.release full false
  have unpinned : (session.release 1 false).pins 1 = 0 := vacated.pins 1
  have again : Consistent ((session.release 1 false).request 1) :=
    vacated.consistent.request (by decide) (by omega) fun away => by cases vacated.here.symm.trans away
  have request : (session.release 1 false).request 1 =
      { session.release 1 false with
        pool := (session.release 1 false).pool.pinned index
        holds := ⟨1, index⟩ :: (session.release 1 false).holds } := by
    simp only [Session.request, requestPage, vacated.here, BufferPool.pinned]
  refine ⟨⟨?_, ?_⟩, by rw [← table, request]; rfl, again, unpinned⟩
  · intro frame bound zero
    cases (again.sound.place frame).mp bound with
    | inl inside =>
      rw [request] at inside
      rw [BufferPool.pinned, setMeta_freeFrames, vacated.free] at inside
      cases inside
    | inr used =>
      cases used with
      | inr taken => cases taken
      | inl mapped =>
        obtain ⟨pid, found⟩ := mapped
        have first := (again.sound.entry found).2
        rw [again.pins found, request, pins_cons, vacated.pins] at zero
        have later : POOL_SIZE < pid := by
          simp only [STORAGE_MANAGER_META_PAGE_ID] at first
          split at zero <;> split at zero <;> omega
        rw [request] at found
        cases (vacated.uncached pid later).symm.trans found
  · rw [request, BufferPool.pinned, setMeta_unpinnedFrames, vacated.queue]
    exact List.cons_ne_nil _ _

theorem Filled.again {count : Nat} (filled : Filled count session) (full : count = POOL_SIZE) :
    Along step Matched session [.release 1 false, .request 1] := by
  have one := filled.one full
  refine ⟨⟨nofun, ?_⟩, ⟨?_, trivial⟩, trivial⟩
  · simp only [one]
    decide
  · intro pid same
    cases same
    exact ⟨by decide, by simp only [step, (filled.overcommitted full).2.2.2]; decide⟩

/-- In a full pool with a page requested again, the next page takes a frame that is in use, where the
request should be turned down. -/
theorem refill_spec {count : Nat} (full : count = POOL_SIZE) :
    let session := (refill count).foldl step empty
    Along step Matched empty (refill count) ∧ session.pool.pageTable (count + 1) = none ∧
      ¬RespectsPins session.pool (session.pool.requestPage .whole .whole (count + 1)).1
        (session.pool.requestPage .whole .whole (count + 1)).2 := by
  have filled := filled_fill count (Nat.le_of_eq full)
  have matched := along_fill (fun _ _ filled _ => filled.matched) count (Nat.le_of_eq full)
  obtain ⟨beyond, table, consistent, -⟩ := filled.overcommitted full
  rw [refill, List.foldl_append, along_append]
  have away := (congrFun table _).trans (filled.uncached (count + 1) (Nat.lt_succ_self count))
  refine ⟨⟨matched, filled.again full⟩, away, fun respects => ?_⟩
  exact (consistent.sound.respects_iff (Nat.succ_ne_zero count) away).mp respects beyond

theorem respectsPins_refill : Along step Matched empty (refill POOL_SIZE) ∧
    ((refill POOL_SIZE).foldl step empty).pool.pageTable (POOL_SIZE + 1) = none ∧
    ¬RespectsPins ((refill POOL_SIZE).foldl step empty).pool
      (((refill POOL_SIZE).foldl step empty).pool.requestPage .whole .whole (POOL_SIZE + 1)).1
      (((refill POOL_SIZE).foldl step empty).pool.requestPage .whole .whole (POOL_SIZE + 1)).2 :=
  refill_spec rfl

end Full
end Session
end Datashil
