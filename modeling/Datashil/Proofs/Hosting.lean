import Datashil.Hosting
import Datashil.Proofs.GivenUp
import Datashil.Proofs.Ledger

/-! The pool can host the tree: it never runs out of frames, whatever the tree has grown to. -/

namespace Datashil
open Library

/-- The pool has what the tree object takes for granted. A tree object has its pages at hand and
records the calls it would have made; this relates it to a pool that has served them all. -/
structure Mirrors (st : BTree) (session : Session Page) : Prop where
  sincere : session.Sincere
  array : session.array = st.pages
  counter : session.pool.storage.newPageOffsetIndex = st.newPageOffsetIndex
  storedIndex : session.pool.storage.storedIndex = st.newPageOffsetIndex
  held : (session.holds.map Hold.pid : Multiset Nat) = st.ledger.held
  unmarked : session.unmarked = st.ledger.unmarked

namespace Mirrors
variable {st : BTree} {session : Session Page} {limit pid : Nat}

theorem mem_held (mirrors : Mirrors st session) :
    pid ∈ st.ledger.held ↔ ∃ hold ∈ session.holds, hold.pid = pid := by
  rw [← mirrors.held, Multiset.mem_coe, List.mem_map]

theorem card_held (mirrors : Mirrors st session) : st.ledger.held.card = session.holds.length := by
  rw [← mirrors.held, Multiset.coe_card, List.length_map]

theorem shows (mirrors : Mirrors st session) {hold : Hold} (held : hold ∈ session.holds) :
    session.pool.frames hold.pointer = st.pages hold.pid := by
  rw [mirrors.sincere.seen (mirrors.sincere.consistent.pointer hold held), mirrors.array]

/-- What the ledger grants, the pool serves. -/
theorem served (mirrors : Mirrors st session) (grants : st.ledger.Grants limit pid)
    (enough : limit ≤ POOL_SIZE) :
    ∃ pointer pool, session.pool.requestPage .whole .whole pid = (.ok pointer, pool) ∧
      pool.frames pointer = st.pages pid ∧
      session.request pid = { session with pool, holds := ⟨pid, pointer⟩ :: session.holds } ∧
        (session.request pid).Sincere := by
  have room := grants.room
  rw [mirrors.card_held] at room
  have spare := mirrors.sincere.consistent.spare_of_few (by omega)
  have few : session.pins pid < 65535 := by
    have count : session.pins pid ≤ session.holds.length := List.countP_le_length
    simp only [POOL_SIZE] at enough
    omega
  have kept : session.unmarked pid = true → 0 < session.pins pid := by
    rw [mirrors.unmarked, Session.pins_pos, ← mirrors.mem_held]
    exact grants.kept
  obtain ⟨pointer, pool, answer, shows, after⟩ := mirrors.sincere.served grants.stored few spare kept
  exact ⟨pointer, pool, answer, shows.trans (congrFun mirrors.array pid), after,
    mirrors.sincere.request grants.stored few spare kept⟩

theorem request (mirrors : Mirrors st session) (grants : st.ledger.Grants limit pid)
    (enough : limit ≤ POOL_SIZE) :
    ∃ pointer pool, session.pool.requestPage .whole .whole pid = (.ok pointer, pool) ∧
      pool.frames pointer = st.pages pid ∧
      Mirrors (st.record (.request pid)) (session.request pid) := by
  obtain ⟨pointer, pool, answer, shows, after, sincere⟩ := mirrors.served grants enough
  have spare := mirrors.sincere.consistent.spare_of_few
    (Nat.lt_of_lt_of_le (mirrors.card_held ▸ grants.room) enough)
  have counters := (mirrors.sincere.consistent.served grants.stored fun _ => spare).counters
  refine ⟨pointer, pool, answer, shows, sincere, ?_, counters.1.trans mirrors.counter,
    counters.2.trans mirrors.storedIndex, ?_, ?_⟩
  · rw [after]
    exact mirrors.array
  · rw [after]
    exact congrArg (Multiset.cons pid) mirrors.held
  · rw [after]
    exact mirrors.unmarked

theorem grown (mirrors : Mirrors st session) :
    Mirrors { st with newPageOffsetIndex := st.newPageOffsetIndex + 1 }
      { session with pool := { session.pool with storage := session.pool.storage.allocateNewPage.2 } } := by
  have counter := congrArg (· + 1) mirrors.counter
  exact ⟨mirrors.sincere.setStorage _ rfl, mirrors.array, counter, counter, mirrors.held, mirrors.unmarked⟩

theorem allocate (mirrors : Mirrors st session) (grants : st.ledger.Grants limit st.newPageOffsetIndex)
    (enough : limit ≤ POOL_SIZE) :
    ∃ pointer pool, session.pool.allocateNewPage .whole .whole =
      (.ok (st.newPageOffsetIndex, pointer), pool) ∧
      pool.frames pointer = st.pages st.newPageOffsetIndex ∧
        (st.pages st.newPageOffsetIndex = .blank → Mirrors st.allocated session.allocate) := by
  have kept : st.ledger.Grants limit st.newPageOffsetIndex := grants
  obtain ⟨pointer, pool, answer, shows, after⟩ := mirrors.grown.request kept enough
  refine ⟨pointer, pool, ?_, shows, fun blank => ?_⟩
  · simp only [BufferPool.allocateNewPage, Storage.allocateNewPage, Storage.setNewPageOffsetIndex] at answer ⊢
    rw [mirrors.counter] at answer ⊢
    rw [answer]
  · rw [Session.allocate_eq, mirrors.counter]
    have same : st.allocated.pages = st.pages := by
      funext pid
      rw [BTree.pages_allocated]
      split
      · rename_i here
        rw [here, blank]
      · rfl
    exact ⟨after.sincere, after.array.trans same.symm, after.counter, after.storedIndex, after.held,
      after.unmarked⟩

theorem release (mirrors : Mirrors st session) (isDirty : Bool) (pinned : pid ∈ st.ledger.held) :
    (∃ pool, session.pool.releasePage pid isDirty = (.ok (), pool)) ∧
      Mirrors (st.record (.release pid isDirty)) (session.release pid isDirty) := by
  have held : 0 < session.pins pid := Session.pins_pos.mpr (mirrors.mem_held.mp pinned)
  obtain ⟨index, here⟩ := mirrors.sincere.consistent.cached held
  have answer := BufferPool.releasePage_cached here isDirty
  have storage : (session.release pid isDirty).pool.storage = session.pool.storage := by
    simp only [Session.release, answer, BufferPool.released]
    rfl
  refine ⟨⟨_, answer⟩, mirrors.sincere.release held isDirty, mirrors.array, ?_, ?_, ?_, ?_⟩
  · exact (congrArg Storage.newPageOffsetIndex storage).trans mirrors.counter
  · exact (congrArg Storage.storedIndex storage).trans mirrors.storedIndex
  · have erased := congrArg (Multiset.erase · pid) mirrors.held
    refine Eq.trans ?_ erased
    rw [Multiset.coe_erase, List.erase_eq_eraseP]
    simp only [Session.release, List.eraseP_map]
    congr 3
    funext hold
    exact decide_eq_decide.mpr eq_comm
  · funext other
    simp only [Session.release, mirrors.unmarked]
    rfl

theorem write (mirrors : Mirrors st session) {hold : Hold} (held : hold ∈ session.holds) (page : Page) :
    Mirrors ((st.setPage hold.pid page).record (.write hold.pid)) (session.modify hold page) := by
  refine ⟨mirrors.sincere.modify held page, ?_, mirrors.counter, mirrors.storedIndex, mirrors.held, ?_⟩
  · funext other
    simp only [Session.modify, mirrors.array]
    rfl
  · funext other
    simp only [Session.modify, mirrors.unmarked]
    rfl

end Mirrors

/-! ### The accesses alone -/

/-- What an access asks of those before it. -/
def Ledger.Permits (limit : Nat) (ledger : Ledger) : Access → Prop
  | .request pid => ledger.Grants limit pid
  | .allocate _ => True
  | .release pid _ | .read pid | .write pid => pid ∈ ledger.held

def Orderly (limit : Nat) : List Access → Prop
  | [] => True
  | access :: accesses => (Ledger.ofAccesses accesses).Permits limit access ∧ Orderly limit accesses

variable {st st₁ : BTree} {session session₁ : Session Page} {limit : Nat}

theorem Guarded.orderly (guarded : Guarded limit st st₁) (orderly : Orderly limit st.accesses) :
    Orderly limit st₁.accesses := by
  induction guarded with
  | refl => exact orderly
  | request _ grants _ ih => exact ⟨grants, ih⟩
  | allocate _ grants ih => exact ⟨grants, trivial, ih⟩
  | release _ pinned ih | read _ pinned ih | write _ pinned ih => exact ⟨pinned, ih⟩
  | setRoot _ ih => exact ih

/-- A pool that has hosted the tree object has what it takes for granted. -/
theorem Hosted.mirrors (hosted : Hosted st session st₁ session₁) (mirrors : Mirrors st session)
    (orderly : Orderly limit st₁.accesses)
    (enough : limit ≤ POOL_SIZE) : Mirrors st₁ session₁ := by
  induction hosted with
  | refl => exact mirrors
  | request _ answer shows ih =>
    obtain ⟨_, _, -, -, after⟩ := (ih orderly.2).request orderly.1 enough
    exact after
  | allocate _ allocated answer shows ih =>
    cases allocated
    obtain ⟨pointer, pool, answer', shows', after⟩ := (ih orderly.2.2).allocate orderly.1 enough
    cases answer.symm.trans answer'
    exact after (shows'.symm.trans (shows.trans (if_pos rfl)))
  | @release _ _ _ _ isDirty _ answer ih => exact ((ih orderly.2).release isDirty orderly.1).2
  | read _ held shows ih => exact { ih orderly.2 with }
  | write _ held shows ih => exact (ih orderly.2).write held _
  | setRoot _ ih => exact { ih orderly with }

/-- Whatever keeps to a limit can be done over the pool, if the limit is not above its size. -/
theorem Guarded.hosted (guarded : Guarded limit st st₁) (mirrors : Mirrors st session)
    (enough : limit ≤ POOL_SIZE) (inside : Guarded.Inside st)
    (some : STORAGE_MANAGER_META_PAGE_ID < st.newPageOffsetIndex)
    (fresh : ∀ pid, st.newPageOffsetIndex ≤ pid → st.pages pid = .blank) :
    ∃ session₁, Hosted st session st₁ session₁ ∧ Mirrors st₁ session₁ := by
  induction guarded with
  | refl => exact ⟨session, .refl, mirrors⟩
  | request _ grants below ih =>
    obtain ⟨session₁, hosted, mirrors₁⟩ := ih
    obtain ⟨pointer, pool, answer, shows, after⟩ := mirrors₁.request grants enough
    exact ⟨_, .request hosted answer shows, after⟩
  | @allocate st₁ guarded grants ih =>
    obtain ⟨session₁, hosted, mirrors₁⟩ := ih
    have blank : st₁.pages st₁.newPageOffsetIndex = .blank :=
      (guarded.untouched inside (.inr (Nat.le_refl _)) some).trans (fresh _ guarded.grows)
    obtain ⟨pointer, pool, answer, shows, after⟩ := mirrors₁.allocate grants enough
    exact ⟨_, .allocate hosted rfl answer (shows.trans (blank.trans (if_pos rfl).symm)), after blank⟩
  | @release _ _ isDirty _ pinned ih =>
    obtain ⟨session₁, hosted, mirrors₁⟩ := ih
    obtain ⟨⟨pool, answer⟩, after⟩ := mirrors₁.release isDirty pinned
    exact ⟨_, .release hosted answer, after⟩
  | read _ pinned ih =>
    obtain ⟨session₁, hosted, mirrors₁⟩ := ih
    obtain ⟨hold, held, rfl⟩ := mirrors₁.mem_held.mp pinned
    exact ⟨_, .read hosted held (mirrors₁.shows held), { mirrors₁ with }⟩
  | @write _ _ page _ pinned ih =>
    obtain ⟨session₁, hosted, mirrors₁⟩ := ih
    obtain ⟨hold, held, rfl⟩ := mirrors₁.mem_held.mp pinned
    exact ⟨_, .write hosted held (mirrors₁.shows held), mirrors₁.write held page⟩
  | setRoot _ ih =>
    obtain ⟨session₁, hosted, mirrors₁⟩ := ih
    exact ⟨_, .setRoot hosted, { mirrors₁ with }⟩

end Datashil
