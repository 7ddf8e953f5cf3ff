import Datashil.Proofs.ClockSweep

/-! The five structures of the buffer pool agree. Each operation is described by what it
does to a pool in this state. -/

namespace Datashil.BufferPool
variable {α : Type} {pool : BufferPool α}

def Mapped (pool : BufferPool α) (index : Nat) : Prop := ∃ pid, pool.pageTable pid = some index

/-- Every frame is free, has a page, or is `taken`: a request has got hold of it and not mapped it
yet. The metadata of a frame agrees with the page table and with the queue; a queue may still have
frames that have been pinned again, but none twice. -/
structure Sound (taken : Option Nat) (pool : BufferPool α) : Prop where
  free : pool.freeFrames.Nodup
  queue : pool.unpinnedFrames.Nodup
  entry : ∀ {pid index}, pool.pageTable pid = some index → (pool.bufferPoolMeta index).pageId = pid ∧
    pid ≠ STORAGE_MANAGER_META_PAGE_ID
  place : ∀ index, index < POOL_SIZE ↔ index ∈ pool.freeFrames ∨ pool.Mapped index ∨ taken = some index
  unmapped : ∀ index ∈ pool.freeFrames, ¬pool.Mapped index
  apart : ∀ index, taken = some index → index ∉ pool.freeFrames ∧ ¬pool.Mapped index
  queued : ∀ index ∈ pool.unpinnedFrames, pool.Mapped index
  flag : ∀ index, pool.Mapped index →
    ((pool.bufferPoolMeta index).isInQueue = true ↔ index ∈ pool.unpinnedFrames)
  waiting : ∀ index, pool.Mapped index → (pool.bufferPoolMeta index).pinCount = 0 →
    index ∈ pool.unpinnedFrames
  empty : ∀ index, ¬pool.Mapped index → pool.bufferPoolMeta index = emptyMeta

def AllPinned (pool : BufferPool α) : Prop := ∀ index < POOL_SIZE, (pool.bufferPoolMeta index).pinCount ≠ 0

/-! ### The state as a whole -/

theorem sound_construct (storage : Storage α) (frames : Nat → α) : Sound none (construct storage frames) := by
  have unmapped : ∀ index, ¬(construct storage frames).Mapped index := fun _ ⟨_, found⟩ => by cases found
  constructor
  · simp only [construct, List.nodup_reverse, List.nodup_range]
  · exact .nil
  · intro pid index found
    cases found
  · intro index
    simp only [construct, Mapped, List.mem_reverse, List.mem_range, reduceCtorEq, exists_false, or_false]
  · exact fun index _ => unmapped index
  · exact nofun
  · exact nofun
  · exact fun index mapped => absurd mapped (unmapped index)
  · exact fun index mapped => absurd mapped (unmapped index)
  · exact fun _ _ => rfl

namespace Sound

theorem injective {taken : Option Nat} (sound : Sound taken pool) {pid other index : Nat}
    (here : pool.pageTable pid = some index)
    (there : pool.pageTable other = some index) : pid = other :=
  (sound.entry here).1.symm.trans (sound.entry there).1

theorem sweepable {taken : Option Nat} (sound : Sound taken pool) : Sweepable pool :=
  ⟨sound.queue, fun index inside => (sound.flag index (sound.queued index inside)).mpr inside⟩

theorem pinCount_free (sound : Sound none pool) {index : Nat} (free : index ∈ pool.freeFrames) :
    (pool.bufferPoolMeta index).pinCount = 0 := by
  rw [sound.empty index (sound.unmapped index free)]
  rfl

theorem not_allPinned (sound : Sound none pool) :
    ¬pool.AllPinned ↔ pool.freeFrames ≠ [] ∨ ∃ index, pool.Mapped index ∧
      (pool.bufferPoolMeta index).pinCount = 0 := by
  constructor
  · intro some
    simp only [AllPinned, not_forall, not_not] at some
    obtain ⟨index, bound, zero⟩ := some
    cases (sound.place index).mp bound with
    | inl free => exact .inl (List.ne_nil_of_mem free)
    | inr used =>
      cases used with
      | inl mapped => exact .inr ⟨index, mapped, zero⟩
      | inr taken => cases taken
  · intro spare all
    cases spare with
    | inl free =>
      obtain ⟨index, inside⟩ := List.exists_mem_of_ne_nil _ free
      exact all index ((sound.place index).mpr (.inl inside)) (sound.pinCount_free inside)
    | inr unpinned =>
      obtain ⟨index, mapped, zero⟩ := unpinned
      exact all index ((sound.place index).mpr (.inr (.inl mapped))) zero

theorem free_of_allPinned (sound : Sound none pool) (all : pool.AllPinned) : pool.freeFrames = [] := by
  by_contra free
  exact sound.not_allPinned.mpr (.inl free) all

theorem pinned_of_allPinned {taken : Option Nat} (sound : Sound taken pool) (all : pool.AllPinned) :
    ∀ index ∈ pool.unpinnedFrames, (pool.bufferPoolMeta index).pinCount ≠ 0 :=
  fun index inside => all index ((sound.place index).mpr (.inr (.inl (sound.queued index inside))))

end Sound

/-! ### Giving up a page -/

/-- What a search for a frame leaves; `victim` is the one it takes out of the queue although the
frame may be unpinned. -/
structure Searched (pool : BufferPool α) (victim : Option Nat) (pool' : BufferPool α) : Prop where
  swept : Swept pool pool'
  gone : ∀ index, victim = some index → index ∉ pool'.unpinnedFrames
  flag : ∀ index, pool.Mapped index → victim ≠ some index →
    ((pool'.bufferPoolMeta index).isInQueue = true ↔ index ∈ pool'.unpinnedFrames)
  waiting : ∀ index, pool.Mapped index → victim ≠ some index →
    (pool.bufferPoolMeta index).pinCount = 0 → index ∈ pool'.unpinnedFrames

theorem Swept.mapped {pool' : BufferPool α} (swept : Swept pool pool') {index : Nat} :
    pool'.Mapped index ↔ pool.Mapped index := by
  rw [Mapped, Mapped, swept.pageTable]

theorem Sound.flag_outside {taken : Option Nat} {pool' : BufferPool α} (sound : Sound taken pool)
    (swept : Swept pool pool') {index : Nat}
    (mapped : pool.Mapped index) (outside : index ∉ pool.unpinnedFrames) :
    (pool'.bufferPoolMeta index).isInQueue = true ↔ index ∈ pool'.unpinnedFrames := by
  rw [swept.others index outside, sound.flag index mapped]
  exact ⟨fun inside => absurd inside outside, swept.subset index⟩

theorem Found.searched {taken : Option Nat} {victim : Nat} {pool' : BufferPool α}
    (sound : Sound taken pool) (found : Found pool victim pool') :
    Searched pool (some victim) pool' := by
  constructor
  · exact found.swept
  · intro index same
    cases same
    exact found.gone
  · intro index mapped away
    by_cases inside : index ∈ pool.unpinnedFrames
    · exact found.flags index inside fun same => away (by rw [same])
    · exact sound.flag_outside found.swept mapped inside
  · exact fun index mapped away zero =>
      found.kept index (sound.waiting index mapped zero) (fun same => away (by rw [same])) zero

theorem Cleared.searched {taken : Option Nat} {pool' : BufferPool α} (sound : Sound taken pool)
    (all : pool.AllPinned)
    (cleared : Cleared pool pool') (victim : Option Nat) : Searched pool victim pool' := by
  constructor
  · exact cleared.swept
  · intro index _
    rw [cleared.empty]
    exact List.not_mem_nil
  · intro index mapped _
    by_cases inside : index ∈ pool.unpinnedFrames
    · simp [cleared.flags index inside, cleared.empty]
    · exact sound.flag_outside cleared.swept mapped inside
  · exact fun index mapped _ zero => absurd zero (all index ((sound.place index).mpr (.inr (.inl mapped))))

theorem Searched.sound {pool' : BufferPool α} (sound : Sound none pool)
    (searched : Searched pool none pool') : Sound none pool' := by
  have swept := searched.swept
  constructor
  · rw [swept.freeFrames]
    exact sound.free
  · exact swept.nodup
  · intro pid index found
    rw [swept.pageTable] at found
    rw [swept.pageId]
    exact sound.entry found
  · intro index
    rw [swept.freeFrames, swept.mapped]
    exact sound.place index
  · intro index inside
    rw [swept.freeFrames] at inside
    rw [swept.mapped]
    exact sound.unmapped index inside
  · exact nofun
  · exact fun index inside => swept.mapped.mpr (sound.queued index (swept.subset index inside))
  · exact fun index mapped => searched.flag index (swept.mapped.mp mapped) nofun
  · intro index mapped zero
    rw [swept.pinCount] at zero
    exact searched.waiting index (swept.mapped.mp mapped) nofun zero
  · intro index unmapped
    rw [swept.mapped] at unmapped
    rw [swept.others index fun inside => unmapped (sound.queued index inside)]
    exact sound.empty index unmapped

def evicted (pool : BufferPool α) (index : Nat) : BufferPool α :=
  let frameMeta := pool.bufferPoolMeta index
  let storage := if frameMeta.isDirty then pool.storage.setDisk frameMeta.pageId (pool.frames index)
    else pool.storage
  ({ pool with storage }.setEntry frameMeta.pageId none).setMeta index emptyMeta

theorem evictPage_done {written : Transfer α} {index : Nat}
    (away : (pool.bufferPoolMeta index).pageId ≠ STORAGE_MANAGER_META_PAGE_ID)
    (whole : (pool.bufferPoolMeta index).isDirty = true → written = .whole) :
    pool.evictPage written index = (.ok index, pool.evicted index) := by
  rw [evictPage, evicted]
  cases dirty : (pool.bufferPoolMeta index).isDirty with
  | false => rfl
  | true =>
    rw [whole dirty, Storage.writePage, if_neg away]
    rfl

theorem evictPage_failed {written : Transfer α} {index : Nat}
    (dirty : (pool.bufferPoolMeta index).isDirty = true) (cut : written ≠ .whole) :
    ∃ err storage, pool.evictPage written index = (.error err, { pool with storage }) := by
  simp only [evictPage, dirty, ite_true, Storage.writePage]
  by_cases first : (pool.bufferPoolMeta index).pageId = STORAGE_MANAGER_META_PAGE_ID
  · simp only [first, ite_true]
    exact ⟨_, _, rfl⟩
  · simp only [first, ite_false]
    cases written with
    | whole => exact absurd rfl cut
    | short left => exact ⟨_, _, rfl⟩
    | failed left => exact ⟨_, _, rfl⟩

@[simp] theorem evicted_freeFrames (index : Nat) : (pool.evicted index).freeFrames = pool.freeFrames := rfl
@[simp] theorem evicted_unpinnedFrames (index : Nat) :
    (pool.evicted index).unpinnedFrames = pool.unpinnedFrames :=
  rfl
@[simp] theorem evicted_frames (index : Nat) : (pool.evicted index).frames = pool.frames := rfl

theorem evicted_meta_same (index : Nat) : (pool.evicted index).bufferPoolMeta index = emptyMeta :=
  setMeta_same _ _

theorem evicted_meta_other {index other : Nat} (away : other ≠ index) :
    (pool.evicted index).bufferPoolMeta other = pool.bufferPoolMeta other :=
  setMeta_other _ away

theorem Swept.evicted_pageTable {pool' : BufferPool α} {victim pid : Nat} (swept : Swept pool pool')
    (sound : Sound none pool)
    (here : pool.pageTable pid = some victim) (other : Nat) :
    (pool'.evicted victim).pageTable other = if other = pid then none else pool.pageTable other := by
  simp only [evicted, setMeta_pageTable, setEntry, swept.pageTable, swept.pageId, (sound.entry here).1]

theorem Swept.evicted_mapped {pool' : BufferPool α} {victim : Nat} (swept : Swept pool pool')
    (sound : Sound none pool)
    (mapped : pool.Mapped victim) (index : Nat) :
    (pool'.evicted victim).Mapped index ↔ pool.Mapped index ∧ index ≠ victim := by
  obtain ⟨pid, here⟩ := mapped
  constructor
  · intro ⟨other, found⟩
    rw [swept.evicted_pageTable sound here] at found
    split at found
    · cases found
    · rename_i away
      refine ⟨⟨other, found⟩, fun same => away ?_⟩
      rw [same] at found
      exact sound.injective found here
  · intro ⟨⟨other, found⟩, away⟩
    refine ⟨other, ?_⟩
    rw [swept.evicted_pageTable sound here, if_neg, found]
    intro same
    rw [same] at found
    exact away (Option.some.inj (found.symm.trans here))

theorem Searched.evicted {pool' : BufferPool α} {victim : Nat} (sound : Sound none pool)
    (mapped : pool.Mapped victim)
    (searched : Searched pool (some victim) pool') : Sound (some victim) (pool'.evicted victim) := by
  have swept := searched.swept
  have still := swept.evicted_mapped sound mapped
  constructor
  · rw [evicted_freeFrames, swept.freeFrames]
    exact sound.free
  · exact swept.nodup
  · intro pid index found
    have away := ((still index).mp ⟨pid, found⟩).2
    obtain ⟨own, here⟩ := mapped
    rw [swept.evicted_pageTable sound here] at found
    split at found
    · cases found
    · rw [evicted_meta_other away, swept.pageId]
      exact sound.entry found
  · intro index
    rw [sound.place, evicted_freeFrames, swept.freeFrames, still]
    simp only [reduceCtorEq, or_false, Option.some.injEq]
    constructor
    · intro places
      by_cases same : index = victim
      · exact .inr (.inr same.symm)
      · exact places.imp_right fun mapped => .inl ⟨mapped, same⟩
    · intro places
      rcases places with free | ⟨mapped, -⟩ | rfl
      · exact .inl free
      · exact .inr mapped
      · exact .inr mapped
  · intro index free
    rw [evicted_freeFrames, swept.freeFrames] at free
    exact fun again => sound.unmapped index free ((still index).mp again).1
  · intro index same
    cases same
    rw [evicted_freeFrames, swept.freeFrames]
    exact ⟨fun free => sound.unmapped _ free mapped, fun again => ((still victim).mp again).2 rfl⟩
  · intro index inside
    refine (still index).mpr ⟨sound.queued index (swept.subset index inside), ?_⟩
    rintro rfl
    exact searched.gone index rfl inside
  · intro index again
    obtain ⟨before, away⟩ := (still index).mp again
    rw [evicted_meta_other away]
    exact searched.flag index before fun same => away (Option.some.inj same).symm
  · intro index again zero
    obtain ⟨before, away⟩ := (still index).mp again
    rw [evicted_meta_other away, swept.pinCount] at zero
    exact searched.waiting index before (fun same => away (Option.some.inj same).symm) zero
  · intro index gone
    by_cases same : index = victim
    · rw [same]
      exact evicted_meta_same victim
    · have unmapped : ¬pool.Mapped index := fun before => gone ((still index).mpr ⟨before, same⟩)
      rw [evicted_meta_other same, swept.others index fun inside => unmapped (sound.queued index inside)]
      exact sound.empty index unmapped

/-! ### Taking a frame -/

/-- What taking a frame may come to. A pinned page is given up only if the queue of a fully
pinned pool still has an entry. -/
inductive Taking (pool : BufferPool α) (written : Transfer α) : Except PoolErr Nat × BufferPool α → Prop
  | free {index : Nat} {rest : List Nat} (free : pool.freeFrames = index :: rest) :
      Taking pool written (.ok index, { pool with freeFrames := rest })
  | reused {victim : Nat} {pool' : BufferPool α} (free : pool.freeFrames = [])
      (found : Found pool victim pool')
      (kept : (pool.bufferPoolMeta victim).isDirty = true → written = .whole) :
        Taking pool written (.ok victim, pool'.evicted victim)
  | stolen {victim : Nat} {pool' : BufferPool α} (all : pool.AllPinned)
      (stale : pool.unpinnedFrames.getLast? = some victim)
      (cleared : Cleared pool pool') (kept : (pool.bufferPoolMeta victim).isDirty = true → written = .whole) :
      Taking pool written (.ok victim, pool'.evicted victim)
  | dropped {victim : Nat} {pool' : BufferPool α} {storage : Storage α} (free : pool.freeFrames = [])
      (found : Found pool victim pool')
      (dirty : (pool.bufferPoolMeta victim).isDirty = true) (cut : written ≠ .whole) :
      Taking pool written (.error .bufferPoolFull, { pool' with storage })
  | held {victim : Nat} {pool' : BufferPool α} {storage : Storage α} (all : pool.AllPinned)
      (stale : pool.unpinnedFrames.getLast? = some victim) (cleared : Cleared pool pool')
      (dirty : (pool.bufferPoolMeta victim).isDirty = true) (cut : written ≠ .whole) :
      Taking pool written (.error .bufferPoolFull, { pool' with storage })
  | full (all : pool.AllPinned) (queue : pool.unpinnedFrames = []) :
      Taking pool written (.error .bufferPoolFull, pool)

theorem Sound.pageId_away {taken : Option Nat} (sound : Sound taken pool) {index : Nat}
    (mapped : pool.Mapped index) :
    (pool.bufferPoolMeta index).pageId ≠ STORAGE_MANAGER_META_PAGE_ID := by
  obtain ⟨pid, found⟩ := mapped
  rw [(sound.entry found).1]
  exact (sound.entry found).2

theorem takeFrame_search {written : Transfer α} {victim : Nat} {pool' : BufferPool α}
    (free : pool.freeFrames = [])
    (found : pool.findPageToEvict = (.ok victim, pool'))
    (away : (pool'.bufferPoolMeta victim).pageId ≠ STORAGE_MANAGER_META_PAGE_ID) :
    (((pool'.bufferPoolMeta victim).isDirty = true → written = .whole) ∧
      pool.takeFrame written = (.ok victim, pool'.evicted victim)) ∨
    ((pool'.bufferPoolMeta victim).isDirty = true ∧ written ≠ .whole ∧
      ∃ storage, pool.takeFrame written = (.error .bufferPoolFull, { pool' with storage })) := by
  by_cases whole : (pool'.bufferPoolMeta victim).isDirty = true → written = .whole
  · refine .inl ⟨whole, ?_⟩
    simp only [takeFrame, checkFreeSpace, free, found, evictPage_done away whole]
  · rw [Classical.not_imp] at whole
    obtain ⟨err, storage, failed⟩ := evictPage_failed whole.1 whole.2
    refine .inr ⟨whole.1, whole.2, storage, ?_⟩
    simp only [takeFrame, checkFreeSpace, free, found, failed]

theorem Sound.taking (sound : Sound none pool) (written : Transfer α) :
    Taking pool written (pool.takeFrame written) := by
  cases free : pool.freeFrames with
  | cons index rest =>
    have taken : pool.takeFrame written = (.ok index, { pool with freeFrames := rest }) := by
      simp only [takeFrame, checkFreeSpace, free, List.tail_cons]
    rw [taken]
    exact .free free
  | nil =>
    by_cases all : pool.AllPinned
    · cases stale : pool.unpinnedFrames.getLast? with
      | none =>
        have queue := List.getLast?_eq_none_iff.mp stale
        have taken : pool.takeFrame written = (.error .bufferPoolFull, pool) := by
          simp only [takeFrame, checkFreeSpace, free, findPageToEvict_empty queue]
        rw [taken]
        exact .full all queue
      | some victim =>
        obtain ⟨pool', found, cleared⟩ :=
          findPageToEvict_pinned sound.sweepable (sound.pinned_of_allPinned all) stale
        have away := sound.pageId_away (sound.queued victim (List.mem_of_getLast? stale))
        have search := @takeFrame_search _ _ written _ _ free found (by rw [cleared.swept.pageId]; exact away)
        rw [cleared.swept.isDirty] at search
        obtain ⟨whole, taken⟩ | ⟨dirty, cut, storage, taken⟩ := search
        · rw [taken]
          exact .stolen all stale cleared whole
        · rw [taken]
          exact .held all stale cleared dirty cut
    · have unpinned : ∃ index ∈ pool.unpinnedFrames, (pool.bufferPoolMeta index).pinCount = 0 := by
        cases sound.not_allPinned.mp all with
        | inl spare => exact absurd free spare
        | inr mapped =>
          obtain ⟨index, mapped, zero⟩ := mapped
          exact ⟨index, sound.waiting index mapped zero, zero⟩
      obtain ⟨victim, pool', found, result⟩ := findPageToEvict_found sound.sweepable unpinned
      have away := sound.pageId_away (sound.queued victim result.queued)
      have search := @takeFrame_search _ _ written _ _ free found (by rw [result.swept.pageId]; exact away)
      rw [result.swept.isDirty] at search
      obtain ⟨whole, taken⟩ | ⟨dirty, cut, storage, taken⟩ := search
      · rw [taken]
        exact .reused free result whole
      · rw [taken]
        exact .dropped free result dirty cut

theorem Sound.takeFree (sound : Sound none pool) {index : Nat} {rest : List Nat}
    (free : pool.freeFrames = index :: rest) :
    Sound (some index) { pool with freeFrames := rest } := by
  have nodup := sound.free
  rw [free] at nodup
  obtain ⟨front, nodup⟩ := List.nodup_cons.mp nodup
  have unmapped : ∀ other ∈ index :: rest, ¬pool.Mapped other := by
    rw [← free]
    exact sound.unmapped
  refine ⟨nodup, sound.queue, sound.entry, ?_, fun other inside => unmapped other (.tail _ inside), ?_,
    sound.queued, sound.flag, sound.waiting,
    sound.empty⟩
  · intro other
    rw [sound.place, free, List.mem_cons]
    simp only [reduceCtorEq, or_false, Option.some.injEq]
    constructor
    · rintro ((rfl | inside) | mapped)
      · exact .inr (.inr rfl)
      · exact .inl inside
      · exact .inr (.inl mapped)
    · rintro (inside | mapped | rfl)
      · exact .inl (.inr inside)
      · exact .inr mapped
      · exact .inl (.inl rfl)
  · intro other same
    cases same
    exact ⟨front, unmapped index (.head _)⟩

theorem Taking.sound {written : Transfer α} {index : Nat} {pool' : BufferPool α}
    (taking : Taking pool written (.ok index, pool'))
    (sound : Sound none pool) : Sound (some index) pool' := by
  cases taking with
  | free free => exact sound.takeFree free
  | reused free found kept => exact (found.searched sound).evicted sound (sound.queued index found.queued)
  | stolen all stale cleared kept =>
    exact (cleared.searched sound all (some index)).evicted sound
      (sound.queued index (List.mem_of_getLast? stale))

theorem Taking.pageTable {written : Transfer α} {index : Nat} {pool' : BufferPool α}
    (taking : Taking pool written (.ok index, pool'))
    (sound : Sound none pool) {pid other : Nat} (found : pool'.pageTable pid = some other) :
    pool.pageTable pid = some other := by
  have evicted : ∀ {victim : Nat} {middle : BufferPool α}, Swept pool middle → pool.Mapped victim →
      (middle.evicted victim).pageTable pid = some other → pool.pageTable pid = some other := by
    intro victim middle swept ⟨own, here⟩ found
    rw [swept.evicted_pageTable sound here] at found
    split at found
    · cases found
    · exact found
  cases taking with
  | free free => exact found
  | reused free search kept => exact evicted search.swept (sound.queued index search.queued) found
  | stolen all stale cleared kept =>
    exact evicted cleared.swept (sound.queued index (List.mem_of_getLast? stale)) found

/-! ### Requests and releases -/

def loaded (pool : BufferPool α) (pid index : Nat) : BufferPool α :=
  ((pool.setFrame index (pool.storage.disk pid)).setMeta index ⟨pid, 1, false, 1, false⟩).setEntry pid
    (some index)

def pinned (pool : BufferPool α) (index : Nat) : BufferPool α :=
  pool.setMeta index
    { pool.bufferPoolMeta index with pinCount := u16 ((pool.bufferPoolMeta index).pinCount + 1), referenceBit := 1 }

inductive Requesting (pool : BufferPool α) (written read : Transfer α) (pid : Nat) :
    Except PoolErr Nat × BufferPool α → Prop
  | cached {index : Nat} (here : pool.pageTable pid = some index) :
      Requesting pool written read pid (.ok index, pool.pinned index)
  | refused {err : PoolErr} {pool' : BufferPool α} (away : pool.pageTable pid = none)
      (taking : Taking pool written (.error err, pool')) :
      Requesting pool written read pid (.error err, pool')
  | unread {index : Nat} {pool' : BufferPool α} {buffer : α} (away : pool.pageTable pid = none)
      (taking : Taking pool written (.ok index, pool'))
      (failed : pid = STORAGE_MANAGER_META_PAGE_ID ∨ read ≠ .whole) :
      Requesting pool written read pid (.error .systemErr, pool'.setFrame index buffer)
  | loaded {index : Nat} {pool' : BufferPool α} (away : pool.pageTable pid = none)
      (taking : Taking pool written (.ok index, pool'))
      (allowed : pid ≠ STORAGE_MANAGER_META_PAGE_ID) (whole : read = .whole) :
      Requesting pool written read pid (.ok index, pool'.loaded pid index)

theorem Sound.requesting (sound : Sound none pool) (written read : Transfer α) (pid : Nat) :
    Requesting pool written read pid (pool.requestPage written read pid) := by
  rw [requestPage]
  cases here : pool.pageTable pid with
  | some index => exact .cached here
  | none =>
    have taking := sound.taking written
    cases taken : pool.takeFrame written with
    | mk result pool' =>
      rw [taken] at taking
      cases result with
      | error err => exact .refused here taking
      | ok index =>
        simp only [Storage.readPage]
        by_cases first : pid = STORAGE_MANAGER_META_PAGE_ID
        · simp only [first, ite_true]
          exact .unread (first ▸ here) taking (.inl rfl)
        · simp only [first, ite_false]
          cases read with
          | whole => exact .loaded here taking first rfl
          | short left => exact .unread here taking (.inr nofun)
          | failed left => exact .unread here taking (.inr nofun)

theorem Sound.update {taken : Option Nat} (sound : Sound taken pool) {pid index : Nat}
    (here : pool.pageTable pid = some index)
    {frameMeta : BufferFrameMeta} {queue : List Nat} (pageId : frameMeta.pageId = pid) (nodup : queue.Nodup)
    (others : ∀ other, other ≠ index → (other ∈ queue ↔ other ∈ pool.unpinnedFrames))
    (flag : frameMeta.isInQueue = true ↔ index ∈ queue) (waiting : frameMeta.pinCount = 0 → index ∈ queue) :
    Sound taken ({ pool with unpinnedFrames := queue }.setMeta index frameMeta) := by
  have mapped : pool.Mapped index := ⟨pid, here⟩
  have each : ∀ {P : BufferFrameMeta → Nat → Prop}, P frameMeta index →
      (∀ other, other ≠ index → P (pool.bufferPoolMeta other) other) →
      ∀ other, P (({ pool with unpinnedFrames := queue }.setMeta index frameMeta).bufferPoolMeta other)
        other := by
    intro P same away other
    by_cases at_index : other = index
    · rw [at_index, setMeta_same]
      exact same
    · rw [setMeta_other _ at_index]
      exact away other at_index
  constructor
  · exact sound.free
  · exact nodup
  · intro other frame found
    by_cases same : frame = index
    · subst same
      rw [setMeta_same, sound.injective found here]
      exact ⟨pageId, (sound.entry here).2⟩
    · rw [setMeta_other _ same]
      exact sound.entry found
  · exact sound.place
  · exact sound.unmapped
  · exact sound.apart
  · intro other inside
    by_cases same : other = index
    · rw [same]
      exact mapped
    · exact sound.queued other ((others other same).mp inside)
  · apply each (P := fun frameMeta other => pool.Mapped other → (frameMeta.isInQueue = true ↔ other ∈ queue))
    · exact fun _ => flag
    · intro other away mapped
      rw [others other away]
      exact sound.flag other mapped
  · apply each (P := fun frameMeta other => pool.Mapped other → frameMeta.pinCount = 0 → other ∈ queue)
    · exact fun _ => waiting
    · intro other away mapped zero
      rw [others other away]
      exact sound.waiting other mapped zero
  · apply each (P := fun frameMeta other => ¬pool.Mapped other → frameMeta = emptyMeta)
    · exact fun unmapped => absurd mapped unmapped
    · exact fun other _ => sound.empty other

theorem Sound.pinned {taken : Option Nat} (sound : Sound taken pool) {pid index : Nat}
    (here : pool.pageTable pid = some index)
    (bound : (pool.bufferPoolMeta index).pinCount < 65535) : Sound taken (pool.pinned index) := by
  refine sound.update here (sound.entry here).1 sound.queue (fun _ _ => .rfl)
    (sound.flag index ⟨pid, here⟩) ?_
  intro zero
  simp only [u16] at zero
  omega

def released (pool : BufferPool α) (index : Nat) (isDirty : Bool) : BufferPool α :=
  let frameMeta := pool.bufferPoolMeta index
  let pinCount := u16 (frameMeta.pinCount - 1)
  let pushed := pinCount = 0 ∧ !frameMeta.isInQueue
  { pool with unpinnedFrames := if pushed then pool.unpinnedFrames ++ [index] else pool.unpinnedFrames }.setMeta
    index
    { frameMeta with
      pinCount
      isInQueue := if pushed then true else frameMeta.isInQueue
      isDirty := if frameMeta.isDirty then true else isDirty }

theorem releasePage_cached {pid index : Nat} (here : pool.pageTable pid = some index) (isDirty : Bool) :
    pool.releasePage pid isDirty = (.ok (), pool.released index isDirty) := by
  simp only [releasePage, here, released]

theorem Sound.released {taken : Option Nat} (sound : Sound taken pool) {pid index : Nat}
    (here : pool.pageTable pid = some index) (isDirty : Bool) :
    Sound taken (pool.released index isDirty) := by
  have flag := sound.flag index ⟨pid, here⟩
  by_cases pushed : u16 ((pool.bufferPoolMeta index).pinCount - 1) = 0 ∧
    (!(pool.bufferPoolMeta index).isInQueue) = true
  · have outside : index ∉ pool.unpinnedFrames := by
      rw [← flag]
      simpa using pushed.2
    simp only [BufferPool.released, pushed, and_self, ite_true]
    refine sound.update here (sound.entry here).1 ?_ ?_ (by simp) fun _ => by simp
    · simp only [List.nodup_append, List.nodup_cons, List.not_mem_nil, not_false_eq_true,
        List.nodup_nil, and_self, List.mem_singleton, true_and]
      refine ⟨sound.queue, ?_⟩
      rintro other inside _ rfl rfl
      exact outside inside
    · intro other away
      simp [away]
  · simp only [BufferPool.released, pushed, ite_false]
    refine sound.update here (sound.entry here).1 sound.queue (fun _ _ => .rfl) flag fun zero => ?_
    rw [← flag]
    by_contra unflagged
    exact pushed ⟨zero, by simpa using unflagged⟩

theorem Sound.loaded {index pid : Nat} (sound : Sound (some index) pool) (away : pool.pageTable pid = none)
    (allowed : pid ≠ STORAGE_MANAGER_META_PAGE_ID) : Sound none (pool.loaded pid index) := by
  obtain ⟨used, unmapped⟩ := sound.apart index rfl
  have table : ∀ other, (pool.loaded pid index).pageTable other = if other = pid then some index
      else pool.pageTable other :=
    fun _ => rfl
  have mapped : ∀ frame, (pool.loaded pid index).Mapped frame ↔ pool.Mapped frame ∨ frame = index := by
    intro frame
    constructor
    · intro ⟨other, found⟩
      rw [table] at found
      split at found
      · exact .inr (Option.some.inj found).symm
      · exact .inl ⟨other, found⟩
    · rintro (⟨other, found⟩ | rfl)
      · refine ⟨other, ?_⟩
        rw [table, if_neg, found]
        rintro rfl
        rw [away] at found
        cases found
      · exact ⟨pid, by rw [table, if_pos rfl]⟩
  have outside : index ∉ pool.unpinnedFrames := fun inside => unmapped (sound.queued index inside)
  have here : (pool.loaded pid index).bufferPoolMeta index = ⟨pid, 1, false, 1, false⟩ := setMeta_same _ _
  have there : ∀ {frame}, frame ≠ index →
      (pool.loaded pid index).bufferPoolMeta frame = pool.bufferPoolMeta frame :=
    setMeta_other _
  have old : ∀ {frame}, frame ≠ index → (pool.loaded pid index).Mapped frame → pool.Mapped frame :=
    fun apart again => ((mapped _).mp again).resolve_right apart
  constructor
  · exact sound.free
  · exact sound.queue
  · intro other frame found
    rw [table] at found
    split at found
    · rename_i same
      cases found
      rw [here, same]
      exact ⟨rfl, allowed⟩
    · rw [there fun same => unmapped ⟨other, same ▸ found⟩]
      exact sound.entry found
  · intro frame
    rw [sound.place, mapped]
    simp only [reduceCtorEq, or_false, Option.some.injEq]
    exact or_congr_right (or_congr_right eq_comm)
  · intro frame free again
    cases (mapped frame).mp again with
    | inl before => exact sound.unmapped frame free before
    | inr same => exact used (same ▸ free)
  · exact nofun
  · exact fun frame inside => (mapped frame).mpr (.inl (sound.queued frame inside))
  · intro frame again
    by_cases same : frame = index
    · rw [same, here]
      simp only [Bool.false_eq_true, false_iff]
      exact outside
    · rw [there same]
      exact sound.flag frame (old same again)
  · intro frame again zero
    by_cases same : frame = index
    · rw [same, here] at zero
      cases zero
    · rw [there same] at zero
      exact sound.waiting frame (old same again) zero
  · intro frame gone
    rw [mapped, not_or] at gone
    rw [there gone.2]
    exact sound.empty frame gone.1

theorem Sound.setFrame {taken : Option Nat} (sound : Sound taken pool) (index : Nat) (page : α) :
    Sound taken (pool.setFrame index page) :=
  ⟨sound.free, sound.queue, sound.entry, sound.place, sound.unmapped, sound.apart, sound.queued,
    sound.flag, sound.waiting, sound.empty⟩

theorem Sound.setStorage {taken : Option Nat} (sound : Sound taken pool) (storage : Storage α) :
    Sound taken { pool with storage } :=
  ⟨sound.free, sound.queue, sound.entry, sound.place, sound.unmapped, sound.apart, sound.queued,
    sound.flag, sound.waiting, sound.empty⟩

end Datashil.BufferPool
