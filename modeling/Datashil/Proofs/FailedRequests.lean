import Datashil.Proofs.Pinning

/-! Requests that fail. A frame that has been taken for a page does not come back when the
page cannot be read, nor does one whose page cannot be written. -/

namespace Datashil.BufferPool
open Library
variable {α : Type} {pool : BufferPool α}

/-- Every frame is free or has one page, and every unpinned page waits in the queue once. -/
structure Accounted (pool : BufferPool α) : Prop where
  place : ∀ index < POOL_SIZE, (index ∈ pool.freeFrames ∧ ¬pool.Mapped index) ∨
    (index ∉ pool.freeFrames ∧ ∃! pid, pool.pageTable pid = some index)
  waiting : ∀ index, pool.Mapped index → (pool.bufferPoolMeta index).pinCount = 0 →
    pool.unpinnedFrames.count index = 1

/-- Nothing is lost from one pool to the other. -/
structure Costless (pool pool' : BufferPool α) : Prop where
  accounted : pool'.Accounted
  dirty : ∀ pid index, pool.pageTable pid = some index → (pool.bufferPoolMeta index).isDirty = true →
    (pool'.pageTable pid = some index ∧ (pool'.bufferPoolMeta index).isDirty = true ∧
      pool'.frames index = pool.frames index) ∨
      pool'.storage.disk pid = pool.frames index
  pinCount : ∀ index, (pool'.bufferPoolMeta index).pinCount = (pool.bufferPoolMeta index).pinCount

/-- All frames are pinned, and the frame at the back of the queue, if there is one, is dirty and
cannot be written. -/
def TakesNothing (pool : BufferPool α) (written : Transfer α) : Prop :=
  pool.AllPinned ∧ ∀ index, pool.unpinnedFrames.getLast? = some index →
    (pool.bufferPoolMeta index).isDirty = true ∧ written ≠ .whole

theorem Sound.accounted (sound : Sound none pool) : pool.Accounted := by
  constructor
  · intro index bound
    cases (sound.place index).mp bound with
    | inl free => exact .inl ⟨free, sound.unmapped index free⟩
    | inr used =>
      cases used with
      | inl mapped =>
        refine .inr ⟨fun free => sound.unmapped index free mapped, ?_⟩
        obtain ⟨pid, here⟩ := mapped
        exact ⟨pid, here, fun other there => sound.injective there here⟩
      | inr taken => cases taken
  · intro index mapped zero
    exact List.count_eq_one_of_mem sound.queue (sound.waiting index mapped zero)

/-- A frame that has been taken and not mapped is lost. -/
theorem Sound.not_accounted {index : Nat} (sound : Sound (some index) pool) : ¬pool.Accounted := by
  intro accounted
  obtain ⟨used, unmapped⟩ := sound.apart index rfl
  cases accounted.place index ((sound.place index).mpr (.inr (.inr rfl))) with
  | inl free => exact used free.1
  | inr mapped =>
    obtain ⟨pid, here, -⟩ := mapped.2
    exact unmapped ⟨pid, here⟩

theorem Sound.not_allPinned_of_found {taken : Option Nat} (sound : Sound taken pool) {victim : Nat}
    {pool' : BufferPool α}
    (found : Found pool victim pool') : ¬pool.AllPinned := by
  intro all
  exact all victim ((sound.place victim).mpr (.inr (.inl (sound.queued victim found.queued)))) found.unpinned

theorem Taking.not_takesNothing {written : Transfer α} {index : Nat} {pool' : BufferPool α}
    (taking : Taking pool written (.ok index, pool'))
    (sound : Sound none pool) : ¬TakesNothing pool written := by
  intro ⟨all, back⟩
  cases taking with
  | free free =>
    rw [sound.free_of_allPinned all] at free
    cases free
  | reused free found kept => exact sound.not_allPinned_of_found found all
  | stolen _ stale cleared kept =>
    obtain ⟨dirty, cut⟩ := back index stale
    exact cut (kept dirty)

theorem Taking.costless_iff {written : Transfer α} {err : PoolErr} {pool' : BufferPool α}
    (taking : Taking pool written (.error err, pool'))
    (sound : Sound none pool) : Costless pool pool' ↔ TakesNothing pool written := by
  cases taking with
  | @dropped victim middle storage free found dirty cut =>
    constructor
    · intro costless
      have mapped : pool.Mapped victim := sound.queued victim found.queued
      have once := costless.accounted.waiting victim (found.swept.mapped.mpr mapped)
        ((found.swept.pinCount victim).trans found.unpinned)
      have never := List.count_eq_zero_of_not_mem found.gone
      simp only at once
      omega
    · exact fun nothing => absurd nothing.1 (sound.not_allPinned_of_found found)
  | @held victim middle storage all stale cleared dirty cut =>
    constructor
    · intro _
      refine ⟨all, fun index last => ?_⟩
      rw [stale] at last
      cases last
      exact ⟨dirty, cut⟩
    · intro _
      refine ⟨(((cleared.searched sound all none).sound sound).setStorage storage).accounted, ?_,
        cleared.swept.pinCount⟩
      intro pid index here marked
      refine .inl ⟨?_, (cleared.swept.isDirty index).trans marked, congrFun cleared.swept.frames index⟩
      simp only [cleared.swept.pageTable, here]
  | full all queue =>
    constructor
    · intro _
      refine ⟨all, fun index last => ?_⟩
      rw [queue] at last
      cases last
    · exact fun _ => ⟨sound.accounted, fun _ _ here marked => .inl ⟨here, marked, rfl⟩, fun _ => rfl⟩

/-- A request that fails costs nothing exactly if there was nothing to take. -/
theorem Sound.costless_iff (sound : Sound none pool) {written read : Transfer α} {pid : Nat} {err : PoolErr}
    (failed : (pool.requestPage written read pid).1 = .error err) :
    Costless pool (pool.requestPage written read pid).2 ↔ TakesNothing pool written := by
  have requesting := sound.requesting written read pid
  cases requested : pool.requestPage written read pid with
  | mk result pool' =>
    rw [requested] at requesting failed
    cases requesting with
    | cached here => cases failed
    | refused away taking => exact taking.costless_iff sound
    | @unread index middle buffer away taking cut =>
      constructor
      · exact fun costless => absurd costless.accounted
          ((taking.sound sound).setFrame index buffer).not_accounted
      · exact fun nothing => absurd nothing (taking.not_takesNothing sound)
    | loaded away taking allowed whole => cases failed

/-! ### Runs -/

/-- A request that takes no frame without putting its page there. -/
def HarmlessRequest (pool : BufferPool α) (written read : Transfer α) (pid : Nat) : Prop :=
  match pool.pageTable pid with
  | some index => (pool.bufferPoolMeta index).pinCount < 65535
  | none =>
    TakesNothing pool written ∨ (pid ≠ STORAGE_MANAGER_META_PAGE_ID ∧ written = .whole ∧ read = .whole)

def Harmless (pool : BufferPool α) : Call α → Prop
  | .request written read pid => HarmlessRequest pool written read pid
  | .allocate written read => HarmlessRequest pool written read pool.storage.newPageOffsetIndex
  | .modify _ _ => True
  | .release _ _ => True

theorem Taking.sound_of_error {written : Transfer α} {err : PoolErr} {pool' : BufferPool α}
    (taking : Taking pool written (.error err, pool'))
    (sound : Sound none pool) (harmless : TakesNothing pool written ∨ written = .whole) :
    Sound none pool' := by
  cases taking with
  | dropped free found dirty cut =>
    cases harmless with
    | inl nothing => exact absurd nothing.1 (sound.not_allPinned_of_found found)
    | inr whole => exact absurd whole cut
  | held all stale cleared dirty cut => exact ((cleared.searched sound all none).sound sound).setStorage _
  | full all queue => exact sound

theorem Sound.requestPage (sound : Sound none pool) {written read : Transfer α} {pid : Nat}
    (harmless : HarmlessRequest pool written read pid) :
    Sound none (pool.requestPage written read pid).2 := by
  have requesting := sound.requesting written read pid
  cases requested : pool.requestPage written read pid with
  | mk result pool' =>
    rw [requested] at requesting
    rw [HarmlessRequest] at harmless
    cases requesting with
    | cached here =>
      rw [here] at harmless
      exact sound.pinned here harmless
    | refused away taking =>
      rw [away] at harmless
      exact taking.sound_of_error sound (harmless.imp_right fun served => served.2.1)
    | unread away taking cut =>
      rw [away] at harmless
      cases harmless with
      | inl nothing => exact absurd nothing (taking.not_takesNothing sound)
      | inr served =>
        cases cut with
        | inl first => exact absurd first served.1
        | inr cut => exact absurd served.2.2 cut
    | @loaded index middle away taking allowed whole =>
      have gone : middle.pageTable pid = none := by
        apply Option.eq_none_iff_forall_ne_some.mpr
        intro other found
        rw [taking.pageTable sound found] at away
        cases away
      exact (taking.sound sound).loaded gone allowed

theorem allocateNewPage_pool (written read : Transfer α) :
    (pool.allocateNewPage written read).2 =
      ({ pool with storage := pool.storage.allocateNewPage.2 }.requestPage written read
        pool.storage.newPageOffsetIndex).2 := by
  simp only [allocateNewPage, Storage.allocateNewPage, Storage.setNewPageOffsetIndex]
  split
  · rename_i same
    rw [same]
  · rename_i same
    rw [same]

theorem Sound.call (sound : Sound none pool) {call : Call α} (harmless : Harmless pool call) :
    Sound none (pool.call call) := by
  cases call with
  | request written read pid => exact sound.requestPage harmless
  | allocate written read =>
    simp only [BufferPool.call, allocateNewPage_pool]
    exact (sound.setStorage _).requestPage harmless
  | modify pointer page => exact sound.setFrame pointer page
  | release pid isDirty =>
    simp only [BufferPool.call]
    cases here : pool.pageTable pid with
    | some index =>
      rw [releasePage_cached here]
      exact sound.released here isDirty
    | none =>
      simp only [releasePage, here]
      exact sound

/-! ### Sessions are runs without harm -/

def ofAct : Act α → Call α
  | .request pid => .request .whole .whole pid
  | .allocate => .allocate .whole .whole
  | .modify hold page => .modify hold.pointer page
  | .release pid isDirty => .release pid isDirty

theorem call_ofAct (session : Session α) (act : Act α) :
    session.pool.call (ofAct act) = (session.step act).pool := by
  cases act with
  | request pid =>
    simp only [ofAct, call, Session.step, Session.request]
    split <;> rename_i requested <;> rw [requested]
  | allocate =>
    simp only [ofAct, call, Session.step, Session.allocate]
    split <;> rename_i requested <;> rw [requested]
  | modify hold page => rfl
  | release pid isDirty => rfl

theorem harmless_of_uncommitted {session : Session α} {acts : List (Act α)} (consistent : session.Consistent)
    (uncommitted : Along Session.step Session.Uncommitted session acts) :
    Along call Harmless session.pool (acts.map ofAct) := by
  induction acts generalizing session with
  | nil => trivial
  | cons act acts ih =>
    obtain ⟨first, rest⟩ := uncommitted
    have served : ∀ pid, session.target act = some pid → HarmlessRequest session.pool .whole .whole pid := by
      intro pid requested
      obtain ⟨allowed, room⟩ := first.1.1 pid requested
      rw [HarmlessRequest]
      cases here : session.pool.pageTable pid with
      | some index => exact (consistent.pins here).trans_lt room
      | none => exact .inr ⟨allowed, rfl, rfl⟩
    rw [List.map_cons, Along, call_ofAct]
    refine ⟨?_, ih (consistent.step first) rest⟩
    cases act with
    | request pid => exact served pid rfl
    | allocate => exact served _ rfl
    | modify hold page => trivial
    | release pid isDirty => trivial

/-- Along a run without harm every frame stays accounted for, and the next failing request costs
nothing exactly if there is nothing to take. -/
theorem failedRequest_costless_iff (storage : Storage α) (frames : Nat → α) (calls : List (Call α))
    (harmless : Along call Harmless (construct storage frames) calls) :
    let pool := calls.foldl call (construct storage frames)
    pool.Accounted ∧ ∀ written read pid err, (pool.requestPage written read pid).1 = .error err →
      (Costless pool (pool.requestPage written read pid).2 ↔ TakesNothing pool written) := by
  have sound : Sound none (calls.foldl call (construct storage frames)) :=
    Along.invariant (fun _ _ sound harmless => sound.call harmless) (sound_construct storage frames) harmless
  exact ⟨sound.accounted, fun _ _ _ _ failed => sound.costless_iff failed⟩

def blank : Storage Nat := ⟨fun _ => 0, 2, 2⟩

theorem failedRequest_costless_iff_displace :
    let pool := ((Session.displace POOL_SIZE).map ofAct).foldl call (construct blank fun _ => 0)
    pool.Accounted ∧ ∀ written read pid err, (pool.requestPage written read pid).1 = .error err →
      (Costless pool (pool.requestPage written read pid).2 ↔ TakesNothing pool written) := by
  obtain ⟨count, full⟩ : ∃ count, count = POOL_SIZE := ⟨_, rfl⟩
  rw [← full]
  exact failedRequest_costless_iff blank (fun _ => 0) ((Session.displace count).map ofAct)
    (harmless_of_uncommitted (Session.consistent_start _ _) (Session.displace_spec full).1)

/-- Nobody gets the frame back that a request of the storage manager's page has taken. -/
theorem failedRequest_leaks :
    ((construct blank fun _ => 0).requestPage .whole .whole STORAGE_MANAGER_META_PAGE_ID).1 =
      .error .systemErr ∧
    ¬Costless (construct blank fun _ => 0)
      ((construct blank fun _ => 0).requestPage .whole .whole STORAGE_MANAGER_META_PAGE_ID).2 := by
  have sound := sound_construct blank fun _ => 0
  have requesting := sound.requesting .whole .whole STORAGE_MANAGER_META_PAGE_ID
  have spare : ¬(construct blank fun _ => 0).AllPinned := fun all => all 0 (by decide) rfl
  cases requested : (construct blank fun _ => 0).requestPage .whole .whole STORAGE_MANAGER_META_PAGE_ID with
  | mk result pool' =>
    rw [requested] at requesting
    cases requesting with
    | cached here => cases here
    | refused away taking =>
      cases taking with
      | dropped free found dirty cut => exact absurd rfl cut
      | held all stale cleared dirty cut => exact absurd all spare
      | full all queue => exact absurd all spare
    | @unread index middle buffer away taking cut =>
      exact ⟨rfl, fun costless =>
        ((taking.sound sound).setFrame index buffer).not_accounted costless.accounted⟩
    | loaded away taking allowed whole => exact absurd rfl allowed

end Datashil.BufferPool
