import Datashil.Proofs.Pinning

/-! The buffer pool hides the file. What a pointer into the pool shows is the page as its
users have left it. -/

namespace Datashil.Session
open Library BufferPool
variable {α : Type} {session : Session α}

/-- A miss finds a frame, and a changed page is released as dirty before its last release is over. -/
def Careful (session : Session α) (act : Act α) : Prop :=
  session.Matched act ∧
    (∀ pid, session.target act = some pid → session.pool.pageTable pid = none →
      session.pool.freeFrames ≠ [] ∨ ∃ index, session.pool.Mapped index ∧
        (session.pool.bufferPoolMeta index).pinCount = 0) ∧
    ∀ pid, act = .release pid false → session.pins pid = 1 → session.unmarked pid = false

/-- A page is in its frame, or in the file if it is not cached or has not changed. Pages that are
changed and not yet released as dirty are still requested, so no frame loses them. -/
structure Faithful (session : Session α) : Prop where
  consistent : Consistent session
  seen : ∀ {pid index}, session.pool.pageTable pid = some index →
    session.pool.frames index = session.array pid
  stored : ∀ pid, (∀ index, session.pool.pageTable pid = some index →
    (session.pool.bufferPoolMeta index).isDirty = false) →
    session.unmarked pid = false → session.pool.storage.disk pid = session.array pid
  marked : ∀ pid, session.unmarked pid = true → 0 < session.pins pid

theorem faithful_start (storage : Storage α) (frames : Nat → α) : Faithful (start storage frames) :=
  ⟨consistent_start storage frames, nofun, fun _ _ _ => rfl, nofun⟩

theorem Consistent.spare (consistent : Consistent session)
    (spare : session.pool.freeFrames ≠ [] ∨ ∃ index, session.pool.Mapped index ∧
      (session.pool.bufferPoolMeta index).pinCount = 0) :
    ¬session.pool.AllPinned := consistent.sound.not_allPinned.mpr spare

inductive Served (session : Session α) (pid : Nat) : Session α → Prop
  | cached {index : Nat} (here : session.pool.pageTable pid = some index)
      (answer : session.pool.requestPage .whole .whole pid = (.ok index, session.pool.pinned index)) :
      Served session pid
        { session with pool := session.pool.pinned index, holds := ⟨pid, index⟩ :: session.holds }
  | loaded {index : Nat} {pool : BufferPool α} (away : session.pool.pageTable pid = none)
      (taking : Taking session.pool .whole (.ok index, pool))
      (answer : session.pool.requestPage .whole .whole pid = (.ok index, pool.loaded pid index)) :
      Served session pid
        { session with pool := pool.loaded pid index, holds := ⟨pid, index⟩ :: session.holds }

theorem Consistent.served (consistent : Consistent session) {pid : Nat}
    (allowed : pid ≠ STORAGE_MANAGER_META_PAGE_ID)
    (spare : session.pool.pageTable pid = none → ¬session.pool.AllPinned) :
    Served session pid (session.request pid) := by
  have requesting := consistent.sound.requesting .whole .whole pid
  rw [Session.request]
  cases answer : session.pool.requestPage .whole .whole pid with
  | mk result pool' =>
    rw [answer] at requesting
    cases requesting with
    | cached here => exact .cached here answer
    | refused away taking =>
      obtain ⟨-, -, all, -⟩ := taking.full_of_error
      exact absurd all (spare away)
    | unread away taking cut =>
      cases cut with
      | inl first => exact absurd first allowed
      | inr cut => exact absurd rfl cut
    | loaded away taking _ whole => exact .loaded away taking answer

theorem Faithful.loaded (faithful : Faithful session) {pid index : Nat} {pool : BufferPool α}
    (away : session.pool.pageTable pid = none)
    (taking : Taking session.pool .whole (.ok index, pool)) : pool.storage.disk pid = session.array pid := by
  rw [taking.disk faithful.consistent.sound, away, if_neg]
  · apply faithful.stored
    · intro other here
      rw [away] at here
      cases here
    · by_contra changed
      obtain ⟨other, here⟩ := faithful.consistent.cached (faithful.marked pid (by simpa using changed))
      rw [away] at here
      cases here
  · exact fun both => nomatch both.1

theorem Faithful.request (faithful : Faithful session) {pid : Nat}
    (allowed : pid ≠ STORAGE_MANAGER_META_PAGE_ID)
    (room : session.pins pid < 65535) (spare : session.pool.pageTable pid = none → ¬session.pool.AllPinned) :
    Faithful (session.request pid) := by
  have sound := faithful.consistent.sound
  have free : session.pool.pageTable pid = none → ¬session.pool.Overcommitted :=
    fun away beyond => spare away beyond.1
  have consistent := faithful.consistent.request allowed room free
  have served := faithful.consistent.served allowed spare
  generalize session.request pid = final at consistent served
  cases served with
  | @cached index here answer =>
    refine ⟨consistent, faithful.seen, ?_, ?_⟩
    · intro other clean
      apply faithful.stored
      intro frame found
      have kept := clean frame found
      by_cases same : frame = index
      · rw [same]
        simpa only [same, BufferPool.pinned, setMeta_same] using kept
      · rwa [BufferPool.pinned, setMeta_other _ same] at kept
    · intro other changed
      rw [pins_cons]
      have held := faithful.marked other changed
      omega
  | @loaded index pool away taking answer =>
    have table : ∀ other, (pool.loaded pid index).pageTable other = if other = pid then some index
        else pool.pageTable other :=
      fun _ => rfl
    have unmapped := ((taking.sound sound).apart index rfl).2
    refine ⟨consistent, ?_, ?_, ?_⟩
    · intro other frame found
      by_cases same : other = pid
      · rw [table, if_pos same] at found
        cases found
        rw [same]
        exact (if_pos rfl).trans (faithful.loaded away taking)
      · rw [table, if_neg same] at found
        have apart : frame ≠ index := by
          rintro rfl
          exact unmapped ⟨other, found⟩
        rw [← faithful.seen (taking.pageTable sound found), ← taking.frames]
        exact if_neg apart
    · intro other clean unchanged
      change pool.storage.disk other = session.array other
      by_cases same : other = pid
      · rw [same]
        exact faithful.loaded away taking
      rw [taking.disk sound]
      by_cases own : session.pool.pageTable other = some index
      · by_cases dirty : (session.pool.bufferPoolMeta index).isDirty = true
        · rw [if_pos ⟨own, dirty⟩]
          exact faithful.seen own
        · rw [if_neg fun both => dirty both.2]
          apply faithful.stored other _ unchanged
          intro frame found
          rw [own] at found
          cases found
          simpa using dirty
      · rw [if_neg fun both => own both.1]
        apply faithful.stored other _ unchanged
        intro frame found
        have apart : frame ≠ index := by
          rintro rfl
          exact own found
        have still : pool.pageTable other = some frame := by
          cases there : pool.pageTable other with
          | none =>
            cases taking.uncached sound there with
            | inl away =>
              rw [away] at found
              cases found
            | inr here => exact absurd here own
          | some place =>
            rw [taking.pageTable sound there] at found
            exact found
        rw [← (taking.others apart).2]
        have kept := clean frame (by rw [table, if_neg same]; exact still)
        have there : (pool.loaded pid index).bufferPoolMeta frame = pool.bufferPoolMeta frame :=
          setMeta_other _ apart
        rwa [there] at kept
    · intro other changed
      rw [pins_cons]
      have held := faithful.marked other changed
      omega

theorem Faithful.setStorage (faithful : Faithful session) (storage : Storage α)
    (same : storage.disk = session.pool.storage.disk) :
    Faithful { session with pool := { session.pool with storage } } :=
  ⟨faithful.consistent.setStorage storage, faithful.seen,
    fun pid clean unchanged => (congrFun same pid).trans (faithful.stored pid clean unchanged),
      faithful.marked⟩

theorem Faithful.modify (faithful : Faithful session) {hold : Hold} (held : hold ∈ session.holds) (page : α) :
    Faithful (session.modify hold page) := by
  have here := faithful.consistent.pointer hold held
  refine ⟨faithful.consistent.modify hold page, ?_, ?_, ?_⟩
  · intro pid index found
    simp only [Session.modify, BufferPool.setFrame]
    by_cases same : pid = hold.pid
    · rw [if_pos same, if_pos]
      rw [same] at found
      exact Option.some.inj (found.symm.trans here)
    · rw [if_neg same, if_neg]
      · exact faithful.seen found
      · intro place
        rw [place] at found
        exact same (faithful.consistent.sound.injective found here)
  · intro pid clean unchanged
    simp only [Session.modify] at unchanged ⊢
    split at unchanged
    · cases unchanged
    · rename_i apart
      rw [if_neg apart]
      exact faithful.stored pid clean unchanged
  · intro pid changed
    simp only [Session.modify] at changed
    split at changed
    · rename_i same
      exact pins_pos.mpr ⟨hold, held, same.symm⟩
    · exact faithful.marked pid changed

theorem Faithful.release (faithful : Faithful session) {pid : Nat} (held : 0 < session.pins pid)
    {isDirty : Bool}
    (last : isDirty = false → session.pins pid = 1 → session.unmarked pid = false) :
    Faithful (session.release pid isDirty) := by
  obtain ⟨index, here⟩ := faithful.consistent.cached held
  have pool : (session.release pid isDirty).pool = session.pool.released index isDirty := by
    simp only [Session.release, releasePage_cached here]
  have dirty : ((session.release pid isDirty).pool.bufferPoolMeta index).isDirty =
      if (session.pool.bufferPoolMeta index).isDirty then true else isDirty := by
    rw [pool]
    exact congrArg BufferFrameMeta.isDirty (setMeta_same index _)
  refine ⟨faithful.consistent.release held isDirty, ?_, ?_, ?_⟩
  · intro other frame found
    rw [pool] at found ⊢
    exact faithful.seen found
  · intro other clean unchanged
    rw [pool] at clean ⊢
    apply faithful.stored
    · intro frame found
      have kept := clean frame found
      by_cases same : frame = index
      · rw [← pool, same, dirty] at kept
        rw [same]
        split at kept
        · cases kept
        · rename_i unset
          simpa using unset
      · rwa [released, setMeta_other _ same] at kept
    · simp only [Session.release] at unchanged
      split at unchanged
      · rename_i both
        -- the page is dirty now, so the file need not have it
        have kept := clean index (both.1 ▸ here)
        rw [← pool, dirty, both.2] at kept
        split at kept <;> cases kept
      · exact unchanged
  · intro other changed
    rw [pins_release pid isDirty held]
    simp only [Session.release] at changed
    split at changed
    · cases changed
    · rename_i kept
      split
      · rename_i same
        rw [same] at changed kept
        cases isDirty with
        | true => exact absurd ⟨rfl, rfl⟩ kept
        | false =>
          have more : session.pins pid ≠ 1 := by
            intro one
            rw [last rfl one] at changed
            cases changed
          omega
      · exact faithful.marked other changed

theorem Faithful.step (faithful : Faithful session) {act : Act α} (careful : session.Careful act) :
    Faithful (session.step act) := by
  obtain ⟨⟨fits, matched⟩, spare, last⟩ := careful
  have free : ∀ pid, session.target act = some pid → session.pool.pageTable pid = none →
      ¬session.pool.AllPinned :=
    fun pid requested away => faithful.consistent.spare (spare pid requested away)
  cases act with
  | request pid => exact faithful.request (fits pid rfl).1 (fits pid rfl).2 (free pid rfl)
  | allocate =>
    rw [Session.step, allocate_eq]
    exact (faithful.setStorage session.pool.storage.allocateNewPage.2 rfl).request (fits _ rfl).1
      (fits _ rfl).2 (free _ rfl)
  | modify hold page => exact faithful.modify matched page
  | release pid isDirty =>
    apply faithful.release matched
    intro clean one
    rw [clean] at last
    exact last pid rfl one

theorem faithful_run (storage : Storage α) (frames : Nat → α) {acts : List (Act α)}
    (careful : Along step Careful (start storage frames) acts) :
    Faithful (acts.foldl step (start storage frames)) :=
  Along.invariant (fun _ _ faithful careful => faithful.step careful) (faithful_start storage frames) careful

section Full
variable {session : Session Nat}

theorem request_unmarked (pid : Nat) : (session.request pid).unmarked = session.unmarked := by
  rw [Session.request]
  split <;> rfl

theorem fill_unmarked (count : Nat) : ((fill count).foldl step empty).unmarked = fun _ => false := by
  induction count with
  | zero => rfl
  | succ count ih =>
    rw [fill_succ, List.foldl_append]
    exact (request_unmarked (count + 1)).trans ih

theorem Filled.careful {count : Nat} (filled : Filled count session) (full : count = POOL_SIZE)
    (held : ⟨1, POOL_SIZE - 1⟩ ∈ session.holds)
    (unmarked : session.unmarked = fun _ => false) :
    Along step Careful session [.modify ⟨1, POOL_SIZE - 1⟩ 7, .release 1 true, .request (POOL_SIZE + 1),
      .release 2 false] := by
  obtain ⟨⟨modified, -⟩, ⟨first, -⟩, ⟨next, -⟩, ⟨second, -⟩, -⟩ := (filled.displaced full held).1
  obtain ⟨index, vacated, -⟩ := (filled.modify ⟨1, POOL_SIZE - 1⟩ 7).release full true
  refine ⟨⟨modified, nofun, nofun⟩, ⟨first, nofun, nofun⟩, ⟨next, ?_, nofun⟩, ⟨second, nofun, ?_⟩, trivial⟩
  · exact fun _ _ _ => .inr ⟨index, ⟨1, vacated.here⟩, vacated.zero⟩
  · intro pid same _
    cases same
    simp only [step, request_unmarked, Session.release, Session.modify, unmarked]
    rfl

theorem careful_displace {count : Nat} (full : count = POOL_SIZE) :
    Along step Careful (start ⟨fun _ => 0, 2, 2⟩ fun _ => 0) (displace count) := by
  rw [← empty, displace, along_append]
  constructor
  · refine along_fill (fun session index filled room =>
      ⟨filled.matched, fun _ _ _ => .inl (filled.spare room), ?_⟩) count (Nat.le_of_eq full)
    intro pid same
    cases same
  · exact (filled_fill count (Nat.le_of_eq full)).careful full (held_fill full) (fill_unmarked count)

end Full

/-- Wherever a careful session leads, a request shows the page as its users have left it, no two pages
share a frame, and the pointers of outstanding requests still show their pages. -/
theorem pool_transparent (storage : Storage α) (frames : Nat → α) (acts : List (Act α))
    (careful : Along step Careful (start storage frames) acts) :
    let session := acts.foldl step (start storage frames)
    (∀ pid, session.Careful (.request pid) → ∃ pointer pool,
      session.pool.requestPage .whole .whole pid = (.ok pointer, pool) ∧
      pool.frames pointer = session.array pid) ∧
    (∀ pid other index, session.pool.pageTable pid = some index →
      session.pool.pageTable other = some index → pid = other) ∧
    ∀ hold ∈ session.holds, session.pool.pageTable hold.pid = some hold.pointer ∧
      session.pool.frames hold.pointer = session.array hold.pid := by
  have faithful := faithful_run storage frames careful
  refine ⟨?_, fun _ _ _ => faithful.consistent.sound.injective, ?_⟩
  · intro pid careful
    have fits := careful.1.1 pid rfl
    have spare := fun away => faithful.consistent.spare (careful.2.1 pid rfl away)
    have served := faithful.consistent.served fits.1 spare
    generalize (acts.foldl step (start storage frames)).request pid = final at served
    cases served with
    | @cached index here answer => exact ⟨index, _, answer, faithful.seen here⟩
    | @loaded index pool away taking answer =>
      exact ⟨index, _, answer, (if_pos rfl).trans (faithful.loaded away taking)⟩
  · intro hold held
    have here := faithful.consistent.pointer hold held
    exact ⟨here, faithful.seen here⟩

theorem pool_transparent_displace :
    let session := (displace POOL_SIZE).foldl step (start ⟨fun _ => 0, 2, 2⟩ fun _ => 0)
    (∀ pid, session.Careful (.request pid) → ∃ pointer pool,
      session.pool.requestPage .whole .whole pid = (.ok pointer, pool) ∧
      pool.frames pointer = session.array pid) ∧
    (∀ pid other index, session.pool.pageTable pid = some index →
      session.pool.pageTable other = some index → pid = other) ∧
    ∀ hold ∈ session.holds, session.pool.pageTable hold.pid = some hold.pointer ∧
      session.pool.frames hold.pointer = session.array hold.pid := by
  obtain ⟨count, full⟩ : ∃ count, count = POOL_SIZE := ⟨_, rfl⟩
  rw [← full]
  exact pool_transparent _ _ (displace count) (careful_displace full)

end Datashil.Session
