import Datashil.Proofs.Transparency
import Mathlib.Data.List.Perm.Subperm

/-! Sessions that give pages up with changes on them: whatever becomes of these pages, all
others are shown as they should be, and the destructor leaves them in the file. -/

namespace Datashil
open Library BufferPool
variable {α : Type}

namespace BufferPool
variable {pool : BufferPool α}

theorem pinned_isDirty (index other : Nat) :
    ((pool.pinned index).bufferPoolMeta other).isDirty = (pool.bufferPoolMeta other).isDirty := by
  by_cases same : other = index
  · rw [same, BufferPool.pinned, setMeta_same]
  · rw [BufferPool.pinned, setMeta_other _ same]

theorem released_isDirty (index other : Nat) (isDirty : Bool) :
    ((pool.released index isDirty).bufferPoolMeta other).isDirty =
    ((pool.bufferPoolMeta other).isDirty || (decide (other = index) && isDirty)) := by
  by_cases same : other = index
  · simp only [same, released, setMeta_same, decide_true, Bool.true_and]
    cases (pool.bufferPoolMeta index).isDirty <;> simp
  · simp [released, setMeta_other _ same, same]

theorem Taking.still {written : Transfer α} {index frame pid : Nat} {pool' : BufferPool α}
    (taking : Taking pool written (.ok index, pool'))
    (sound : Sound none pool) (here : pool.pageTable pid = some frame) (apart : frame ≠ index) :
    pool'.pageTable pid = some frame := by
  cases there : pool'.pageTable pid with
  | none =>
    cases taking.uncached sound there with
    | inl away =>
      rw [away] at here
      cases here
    | inr own =>
      rw [own] at here
      exact absurd (Option.some.inj here).symm apart
  | some place => exact (taking.pageTable sound there).symm.trans here

theorem Taking.counters {written : Transfer α} {index : Nat} {pool' : BufferPool α}
    (taking : Taking pool written (.ok index, pool')) :
    pool'.storage.newPageOffsetIndex = pool.storage.newPageOffsetIndex ∧
      pool'.storage.storedIndex = pool.storage.storedIndex := by
  have evicted : ∀ {middle : BufferPool α}, Swept pool middle →
      (middle.evicted index).storage.newPageOffsetIndex = pool.storage.newPageOffsetIndex ∧
        (middle.evicted index).storage.storedIndex = pool.storage.storedIndex := by
    intro middle swept
    rw [← swept.storage]
    simp only [BufferPool.evicted, setMeta, setEntry]
    split <;> exact ⟨rfl, rfl⟩
  cases taking with
  | free free => exact ⟨rfl, rfl⟩
  | reused free found kept => exact evicted found.swept
  | stolen all stale cleared kept => exact evicted cleared.swept

/-! ### The destructor -/

/-- What the file is to have of a page in the end. -/
def owed (pool : BufferPool α) (pid : Nat) : α :=
  match pool.pageTable pid with
  | some index => if (pool.bufferPoolMeta index).isDirty then pool.frames index else pool.storage.disk pid
  | none => pool.storage.disk pid

theorem Sound.mapped_of_dirty {taken : Option Nat} (sound : Sound taken pool) {index : Nat}
    (dirty : (pool.bufferPoolMeta index).isDirty = true) :
    pool.Mapped index := by
  by_contra unmapped
  rw [sound.empty index unmapped] at dirty
  cases dirty

def flushed (pool : BufferPool α) (written : Transfer α) (index : Nat) : BufferPool α :=
  { pool with
    storage := (pool.storage.writePage written (pool.bufferPoolMeta index).pageId (pool.frames index)).2 }.setMeta index
    { pool.bufferPoolMeta index with isDirty := false }

theorem flush_cons (written : Nat → Transfer α) (index : Nat) (frames : List Nat) :
    pool.flush written (index :: frames) =
    if (pool.bufferPoolMeta index).isDirty then
      (pool.flushed (written index) index).flush written frames else pool.flush written frames :=
  rfl

theorem Sound.flushed (sound : Sound none pool) {written : Transfer α} {index : Nat}
    (dirty : (pool.bufferPoolMeta index).isDirty = true) :
    Sound none (pool.flushed written index) := by
  have mapped := sound.mapped_of_dirty dirty
  obtain ⟨pid, here⟩ := id mapped
  let storage := (pool.storage.writePage written (pool.bufferPoolMeta index).pageId (pool.frames index)).2
  have updated : Sound none
      ({ pool with storage }.setMeta index { pool.bufferPoolMeta index with isDirty := false }) :=
    (sound.setStorage storage).update here (sound.entry here).1 sound.queue (fun _ _ => .rfl)
      (sound.flag index mapped) (sound.waiting index mapped)
  exact updated

theorem writePage_other (storage : Storage α) (written : Transfer α) {pid other : Nat} (page : α)
    (apart : other ≠ pid) :
    (storage.writePage written pid page).2.disk other = storage.disk other := by
  simp only [Storage.writePage]
  split
  · rfl
  · cases written <;> exact if_neg apart

theorem Sound.owed_flushed (sound : Sound none pool) {written : Transfer α} {index pid : Nat}
    (dirty : (pool.bufferPoolMeta index).isDirty = true)
    (whole : pool.pageTable pid = some index → written = .whole) :
    (pool.flushed written index).owed pid = pool.owed pid := by
  obtain ⟨own, there⟩ := sound.mapped_of_dirty dirty
  obtain ⟨named, allowed⟩ := sound.entry there
  by_cases same : pid = own
  · subst same
    have written := whole there
    subst written
    simp [owed, BufferPool.flushed, there, dirty, setMeta, named, Storage.writePage, allowed, Storage.setDisk]
  · have disk : (pool.flushed written index).storage.disk pid = pool.storage.disk pid :=
      writePage_other _ _ _ (named ▸ same)
    cases here : pool.pageTable pid with
    | none =>
      have table : (pool.flushed written index).pageTable pid = none := here
      simp only [owed, here, table, disk]
    | some frame =>
      have apart : frame ≠ index := by
        rintro rfl
        exact same (sound.injective here there)
      have kept : (pool.flushed written index).bufferPoolMeta frame = pool.bufferPoolMeta frame :=
        setMeta_other _ apart
      have table : (pool.flushed written index).pageTable = pool.pageTable := rfl
      have frames : (pool.flushed written index).frames = pool.frames := rfl
      simp only [owed, table, here, kept, frames, disk]

theorem Sound.flush (sound : Sound none pool) {written : Nat → Transfer α} {pid : Nat}
    (whole : ∀ index, pool.pageTable pid = some index → written index = .whole) (frames : List Nat) :
    (pool.flush written frames).owed pid = pool.owed pid ∧
      (pool.flush written frames).pageTable = pool.pageTable ∧
      ∀ index, ((pool.flush written frames).bufferPoolMeta index).isDirty = true →
        (pool.bufferPoolMeta index).isDirty = true ∧ index ∉ frames := by
  induction frames generalizing pool with
  | nil => exact ⟨rfl, rfl, fun _ dirty => ⟨dirty, List.not_mem_nil⟩⟩
  | cons index frames ih =>
    rw [flush_cons]
    split
    · rename_i dirty
      have after : Sound none (pool.flushed (written index) index) := sound.flushed dirty
      obtain ⟨owed, table, left⟩ := ih after whole
      refine ⟨owed.trans (sound.owed_flushed dirty (whole index)), table, fun other still => ?_⟩
      obtain ⟨before, outside⟩ := left other still
      by_cases same : other = index
      · rw [same, BufferPool.flushed, setMeta_same] at before
        cases before
      · rw [BufferPool.flushed, setMeta_other _ same] at before
        exact ⟨before, by simp [same, outside]⟩
    · rename_i clean
      obtain ⟨owed, table, left⟩ := ih sound whole
      refine ⟨owed, table, fun other still => ?_⟩
      obtain ⟨before, outside⟩ := left other still
      have same : other ≠ index := by
        rintro rfl
        exact clean before
      exact ⟨before, by simp [same, outside]⟩

/-- The destructor pays what is owed, wherever its write succeeds. -/
theorem Sound.destroy (sound : Sound none pool) {written : Nat → Transfer α} {pid : Nat}
    (whole : ∀ index, pool.pageTable pid = some index → written index = .whole) :
    (pool.destroy written).disk pid = pool.owed pid := by
  obtain ⟨owed, table, left⟩ := sound.flush whole (List.range POOL_SIZE)
  rw [← owed, BufferPool.owed, BufferPool.destroy, table]
  cases here : pool.pageTable pid with
  | none => rfl
  | some index =>
    have bound : index < POOL_SIZE := (sound.place index).mpr (.inr (.inl ⟨pid, here⟩))
    have clean : ((pool.flush written (List.range POOL_SIZE)).bufferPoolMeta index).isDirty = false :=
      Bool.eq_false_iff.mpr fun dirty => (left index dirty).2 (List.mem_range.mpr bound)
    simp [clean]

theorem writePage_storedIndex (storage : Storage α) (written : Transfer α) (pid : Nat) (page : α) :
    (storage.writePage written pid page).2.storedIndex = storage.storedIndex := by
  simp only [Storage.writePage]
  split
  · rfl
  · cases written <;> rfl

theorem flush_storedIndex (written : Nat → Transfer α) (frames : List Nat) :
    (pool.flush written frames).storage.storedIndex = pool.storage.storedIndex := by
  induction frames generalizing pool with
  | nil => rfl
  | cons index frames ih =>
    rw [flush_cons]
    split
    · exact ih.trans (writePage_storedIndex ..)
    · exact ih

theorem destroy_storedIndex (written : Nat → Transfer α) :
    (pool.destroy written).storedIndex = pool.storage.storedIndex := by
  rw [BufferPool.destroy]
  exact flush_storedIndex written _

end BufferPool

namespace Session
variable {session : Session α}

theorem Consistent.spare_of_few (consistent : Consistent session)
    (few : session.holds.length < POOL_SIZE) : ¬session.pool.AllPinned := by
  intro all
  have pointers : List.range POOL_SIZE ⊆ session.holds.map Hold.pointer := by
    intro index inside
    have bound := List.mem_range.mp inside
    have free : session.pool.freeFrames = [] := consistent.sound.free_of_allPinned all
    have mapped : session.pool.Mapped index := by simpa [free] using (consistent.sound.place index).mp bound
    obtain ⟨pid, here⟩ := mapped
    have pinned : 0 < session.pins pid := Nat.pos_of_ne_zero (consistent.pins here ▸ all index bound)
    obtain ⟨hold, held, rfl⟩ := pins_pos.mp pinned
    exact List.mem_map.mpr ⟨hold, held, Option.some.inj ((consistent.pointer hold held).symm.trans here)⟩
  have count := (List.subperm_of_subset List.nodup_range pointers).length_le
  rw [List.length_range, List.length_map] at count
  omega

theorem Served.counters {pid : Nat} {final : Session α} (served : Served session pid final) :
    final.pool.storage.newPageOffsetIndex = session.pool.storage.newPageOffsetIndex ∧
      final.pool.storage.storedIndex = session.pool.storage.storedIndex := by
  cases served with
  | cached here answer => exact ⟨rfl, rfl⟩
  | loaded away taking answer => exact taking.counters

/-- A page is in its frame, or in the file unless it has been given up with changes on it. The tree
does this with internal pages that it has no more: it changes them and releases them as clean. -/
structure Sincere (session : Session α) : Prop where
  consistent : Consistent session
  seen : ∀ {pid index}, session.pool.pageTable pid = some index →
    session.pool.frames index = session.array pid
  stored : ∀ pid, (∀ index, session.pool.pageTable pid = some index →
    (session.pool.bufferPoolMeta index).isDirty = false) →
    session.unmarked pid = false → session.pool.storage.disk pid = session.array pid

namespace Sincere

theorem start (storage : Storage α) (frames : Nat → α) : Sincere (start storage frames) :=
  ⟨consistent_start storage frames, nofun, fun _ _ _ => rfl⟩

/-- Making room for a page writes back what is lost from the pool. -/
theorem taken (sincere : Sincere session) {index : Nat} {pool : BufferPool α}
    (taking : Taking session.pool .whole (.ok index, pool)) {pid : Nat}
    (clean : ∀ frame, pool.pageTable pid = some frame → (pool.bufferPoolMeta frame).isDirty = false)
    (unchanged : session.unmarked pid = false) :
    pool.storage.disk pid = session.array pid := by
  have sound := sincere.consistent.sound
  rw [taking.disk sound]
  by_cases own : session.pool.pageTable pid = some index ∧ (session.pool.bufferPoolMeta index).isDirty = true
  · rw [if_pos own]
    exact sincere.seen own.1
  · rw [if_neg own]
    apply sincere.stored pid _ unchanged
    intro frame here
    by_cases same : frame = index
    · rw [same] at here ⊢
      simpa [here] using own
    · rw [← (taking.others same).2]
      exact clean frame (taking.still sound here same)

theorem request (sincere : Sincere session) {pid : Nat} (allowed : pid ≠ STORAGE_MANAGER_META_PAGE_ID)
    (room : session.pins pid < 65535)
    (spare : ¬session.pool.AllPinned) (kept : session.unmarked pid = true → 0 < session.pins pid) :
    Sincere (session.request pid) := by
  have sound := sincere.consistent.sound
  have consistent := sincere.consistent.request allowed room fun _ beyond => spare beyond.1
  have served := sincere.consistent.served allowed fun _ => spare
  generalize session.request pid = final at consistent served
  cases served with
  | @cached index here answer =>
    refine ⟨consistent, sincere.seen, fun other clean => sincere.stored other fun frame found => ?_⟩
    exact (pinned_isDirty index frame).symm.trans (clean frame found)
  | @loaded index pool away taking answer =>
    have table : ∀ other, (pool.loaded pid index).pageTable other = if other = pid then some index
        else pool.pageTable other :=
      fun _ => rfl
    have unmapped := ((taking.sound sound).apart index rfl).2
    have unchanged : session.unmarked pid = false := by
      by_contra changed
      obtain ⟨other, here⟩ := sincere.consistent.cached (kept (by simpa using changed))
      rw [away] at here
      cases here
    have read : pool.storage.disk pid = session.array pid := by
      apply sincere.taken taking _ unchanged
      intro frame found
      rw [taking.pageTable sound found] at away
      cases away
    refine ⟨consistent, ?_, ?_⟩
    · intro other frame found
      by_cases same : other = pid
      · rw [table, if_pos same] at found
        cases found
        rw [same]
        exact (if_pos rfl).trans read
      · rw [table, if_neg same] at found
        have apart : frame ≠ index := fun here => unmapped ⟨other, here ▸ found⟩
        rw [← sincere.seen (taking.pageTable sound found), ← taking.frames]
        exact if_neg apart
    · intro other clean settled
      by_cases same : other = pid
      · rw [same]
        exact read
      · apply sincere.taken taking _ settled
        intro frame found
        have apart : frame ≠ index := fun here => unmapped ⟨other, here ▸ found⟩
        have there : (pool.loaded pid index).bufferPoolMeta frame = pool.bufferPoolMeta frame :=
          setMeta_other _ apart
        rw [← there]
        exact clean frame (by rw [table, if_neg same, found])

theorem setStorage (sincere : Sincere session) (storage : Storage α)
    (same : storage.disk = session.pool.storage.disk) :
    Sincere { session with pool := { session.pool with storage } } :=
  ⟨sincere.consistent.setStorage storage, sincere.seen, fun pid clean unchanged =>
    (congrFun same pid).trans (sincere.stored pid clean unchanged)⟩

theorem modify (sincere : Sincere session) {hold : Hold} (held : hold ∈ session.holds) (page : α) :
    Sincere (session.modify hold page) := by
  have here := sincere.consistent.pointer hold held
  refine ⟨sincere.consistent.modify hold page, ?_, ?_⟩
  · intro pid index found
    simp only [Session.modify, BufferPool.setFrame]
    by_cases same : pid = hold.pid
    · rw [same] at found
      rw [if_pos same, if_pos (Option.some.inj (found.symm.trans here))]
    · have apart : index ≠ hold.pointer :=
        fun place => same (sincere.consistent.sound.injective found (place ▸ here))
      rw [if_neg same, if_neg apart]
      exact sincere.seen found
  · intro pid clean unchanged
    simp only [Session.modify] at unchanged ⊢
    split at unchanged
    · cases unchanged
    · rename_i apart
      rw [if_neg apart]
      exact sincere.stored pid clean unchanged

theorem release (sincere : Sincere session) {pid : Nat} (held : 0 < session.pins pid) (isDirty : Bool) :
    Sincere (session.release pid isDirty) := by
  obtain ⟨index, here⟩ := sincere.consistent.cached held
  have pool : (session.release pid isDirty).pool = session.pool.released index isDirty := by
    simp only [Session.release, releasePage_cached here]
  refine ⟨sincere.consistent.release held isDirty, ?_, ?_⟩
  · intro other frame found
    rw [pool] at found ⊢
    exact sincere.seen found
  · intro other clean unchanged
    rw [pool] at clean ⊢
    have both : ∀ frame, session.pool.pageTable other = some frame →
        (session.pool.bufferPoolMeta frame).isDirty = false ∧ ¬(frame = index ∧ isDirty = true) := by
      intro frame found
      have kept := clean frame found
      rw [released_isDirty] at kept
      simpa using kept
    apply sincere.stored other (fun frame found => (both frame found).1)
    simp only [Session.release] at unchanged
    split at unchanged
    · rename_i same
      exact absurd ⟨rfl, same.2⟩ (both index (same.1 ▸ here)).2
    · exact unchanged

theorem served (sincere : Sincere session) {pid : Nat} (allowed : pid ≠ STORAGE_MANAGER_META_PAGE_ID)
    (room : session.pins pid < 65535)
    (spare : ¬session.pool.AllPinned) (kept : session.unmarked pid = true → 0 < session.pins pid) :
    ∃ pointer pool, session.pool.requestPage .whole .whole pid = (.ok pointer, pool) ∧
      pool.frames pointer = session.array pid ∧
      session.request pid = { session with pool, holds := ⟨pid, pointer⟩ :: session.holds } := by
  have after := sincere.request allowed room spare kept
  have served := sincere.consistent.served allowed fun _ => spare
  generalize session.request pid = final at after served
  cases served with
  | @cached index here answer => exact ⟨index, _, answer, sincere.seen here, rfl⟩
  | @loaded index pool away taking answer =>
    exact ⟨index, _, answer, after.seen (after.consistent.pointer ⟨pid, index⟩ (.head _)), rfl⟩

theorem destroy (sincere : Sincere session) {written : Nat → Transfer α} {pid : Nat}
    (unchanged : session.unmarked pid = false)
    (whole : ∀ index, session.pool.pageTable pid = some index → written index = .whole) :
    (session.pool.destroy written).disk pid = session.array pid := by
  rw [sincere.consistent.sound.destroy whole, owed]
  cases here : session.pool.pageTable pid with
  | none => exact sincere.stored pid (by simp [here]) unchanged
  | some index =>
    by_cases dirty : (session.pool.bufferPoolMeta index).isDirty = true
    · simp only [dirty, ite_true]
      exact sincere.seen here
    · simp only [dirty]
      refine sincere.stored pid (fun frame found => ?_) unchanged
      rw [here] at found
      cases found
      simpa using dirty

end Sincere

theorem Consistent.getTotalPinnedPages (consistent : Consistent session) (none : session.holds = []) :
    session.pool.getTotalPinnedPages = 0 := by
  rw [BufferPool.getTotalPinnedPages, List.countP_eq_zero]
  intro index _
  by_cases mapped : session.pool.Mapped index
  · obtain ⟨pid, here⟩ := mapped
    have unpinned : (session.pool.bufferPoolMeta index).pinCount = 0 :=
      (consistent.pins here).trans (by simp [Session.pins, none])
    simp [unpinned]
  · simp [consistent.sound.empty index mapped, emptyMeta]

end Session
end Datashil
