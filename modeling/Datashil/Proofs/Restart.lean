import Datashil.Proofs.Hosting
import Datashil.Proofs.Uses

/-! The database file holds what the tree stood for when the server was stopped. What the
destructor may leave out are changes to pages that the tree has no more. -/

namespace Datashil
open Library BTree

variable {cut : Nat → Nat → Prop} {st st' : BTree} {h limit : Nat} {tree : Tree h} {contents : Contents}
    {payloads : List (List Byte)}
  {session : Session Page} {storage : Storage Page}

/-! ### Opening a file -/

/-- A store that may differ in internal pages outside the tree. -/
theorem Stores.reopened (stores : Stores cut st tree payloads) (root : st'.rootPageId = tree.pid)
    (counter : st'.newPageOffsetIndex = st.newPageOffsetIndex)
    (kept : ∀ pid, pid ∈ tree.pids ∨ (∀ page, st.pages pid ≠ .internal page) →
      st'.pages pid = st.pages pid) : Stores cut st' tree payloads := by
  have represents := stores.represents
  refine ⟨⟨root, ?_, ?_, represents.nodup, ?_, represents.valid, represents.ordered, represents.rooted⟩,
    ?_, stores.row, ?_⟩
  · rw [kept _ (.inr (by simp [represents.metaPage]))]
    exact represents.metaPage
  · exact represents.holds.congr fun pid inside => kept pid (.inl inside)
  · rw [counter]
    exact represents.bounded
  · intro leaf member
    refine (stores.guided leaf member).imp_right ?_
    rintro ⟨below, page, stored⟩
    exact ⟨counter ▸ below, page, (kept _ (.inr (by simp [stored]))).trans stored⟩
  · refine stores.filed.imp fun raw payload filed => filed.kept ⟨Nat.le_of_eq counter.symm, ?_⟩
    intro pid page _ stored
    rw [kept pid (.inr (by simp [stored])), stored]

theorem construct_loads {rootPageId : Nat}
    (metaPage : st.pages DATABASE_META_PAGE_ID = .databaseMeta DATABASE_MAGIC_NUMBER rootPageId)
    (live : st.Live DATABASE_META_PAGE_ID) (idle : st.ledger.held = 0) :
    Ran construct st fun _ st' => Accounted 3 st 0 ∅ st' ∧ st'.pages = st.pages ∧
      st'.newPageOffsetIndex = st.newPageOffsetIndex ∧
      st'.rootPageId = rootPageId := by
  have start := Accounted.refl 3 st
  rw [idle] at start
  have asked := ((start.request DATABASE_META_PAGE_ID (by decide) live (by simp)).read
    DATABASE_META_PAGE_ID (by simp)).setRoot rootPageId
  have released := asked.release DATABASE_META_PAGE_ID (by simp)
  rw [Multiset.erase_cons_head] at released
  simp only [construct, ran_bind, ran_requestPage, ran_readPage, pages_record, metaPage, ite_true,
    ran_modify, ran_releasePage]
  exact ⟨released, trivial, rfl, rfl⟩

/-- The file agrees with a tree object, except for pages that have been given up with changes on
them. -/
structure Saves (storage : Storage Page) (st : BTree) : Prop where
  storedIndex : storage.storedIndex = st.newPageOffsetIndex
  disk : ∀ pid, st.ledger.unmarked pid = false → storage.disk pid = st.pages pid

theorem Resting.settled (resting : Resting st tree contents) {pid : Nat}
    (known : pid ∈ tree.pids ∨ (∀ page, st.pages pid ≠ .internal page)) :
    st.ledger.unmarked pid = false := by
  refine Bool.eq_false_iff.mpr fun unmarked => ?_
  obtain ⟨outside, -, page, stored⟩ := resting.balanced.unmarked pid unmarked
  exact known.elim outside fun other => other page stored

theorem Resting.reopens (resting : Resting st tree contents) (saves : Saves storage st) :
    Ran construct (unopened storage.bootstrap) fun _ st' => Guarded 3 (unopened storage.bootstrap) st' ∧
      Resting st' tree contents ∧
      st'.rootPageId = st.rootPageId ∧ st'.newPageOffsetIndex = st.newPageOffsetIndex ∧
        ∀ pid, st.ledger.unmarked pid = false → st'.pages pid = st.pages pid := by
  obtain ⟨keeps, balanced, affords⟩ := id resting
  obtain ⟨payloads, stores, lists⟩ := keeps
  have represents := stores.represents
  have metaPage : (unopened storage.bootstrap).pages DATABASE_META_PAGE_ID =
      .databaseMeta DATABASE_MAGIC_NUMBER tree.pid :=
    (saves.disk _ (resting.settled (.inr (by simp [represents.metaPage])))).trans represents.metaPage
  have counter : (unopened storage.bootstrap).newPageOffsetIndex = st.newPageOffsetIndex := saves.storedIndex
  have live : (unopened storage.bootstrap).Live DATABASE_META_PAGE_ID := by
    refine ⟨⟨by decide, rfl⟩, ?_⟩
    have range := represents.bounded _ Tree.pid_mem_pids
    omega
  refine (construct_loads metaPage live rfl).imp fun _ st' loaded => ?_
  obtain ⟨accounted, pages, same, root⟩ := loaded
  have disk : st'.pages = storage.disk := pages
  have stores' : Stores (· < ·) st' tree payloads :=
    stores.reopened root (same.trans counter) fun pid known => disk ▸ saves.disk pid (resting.settled known)
  have blank : ∀ pid, pid = STORAGE_MANAGER_META_PAGE_ID ∨ st'.newPageOffsetIndex ≤ pid →
      st'.pages pid = .blank := by
    intro pid outside
    have empty := balanced.blank pid (outside.imp_right fun new => same.trans counter ▸ new)
    rw [disk, saves.disk pid (resting.settled (.inr (by simp [empty]))), empty]
  refine ⟨accounted.guarded,
    ⟨⟨payloads, stores', lists⟩, ⟨accounted.held, fun pid unmarked => ?_, blank⟩, ?_⟩,
    root.trans represents.root.symm,
    same.trans counter, fun pid settled => disk ▸ saves.disk pid settled⟩
  · cases accounted.unmarked pid unmarked with
    | inl none => exact absurd none (by simp)
    | inr before => cases before
  · exact affords.imp_right fun room => Nat.le_trans room (Nat.le_of_eq (same.trans counter).symm)

/-- What the file stands for: nothing yet, or what a tree object stood for. -/
def Resumes (storage : Storage Page) (contents : Contents) : Prop :=
  (storage = .created ∧ contents = .empty) ∨ ∃ (st : BTree) (h : Nat) (tree : Tree h),
    Resting st tree contents ∧ Saves storage st

theorem Resumes.construct (resumes : Resumes storage contents) :
    Ran construct (unopened storage.bootstrap) fun _ st =>
    Guarded 3 (unopened storage.bootstrap) st ∧ (∃ (h : Nat) (tree : Tree h), Resting st tree contents) ∧
      st.newPageOffsetIndex ≤ max 3 storage.storedIndex := by
  rcases resumes with ⟨rfl, rfl⟩ | ⟨st, h, tree, resting, saves⟩
  · have few : Ran BTree.construct (unopened Storage.created.bootstrap) fun _ st =>
      st.newPageOffsetIndex ≤ 3 := by
      decide +kernel
    obtain ⟨result, st, ended, few⟩ := few
    have accounted := construct_accounted _ _ ended
    exact ⟨result, st, ended, accounted.1,
      ⟨0, emptyLeaf 2, construct_keeps.elim ended, accounted.2, .inl rfl⟩,
      Nat.le_trans few (Nat.le_max_left _ _)⟩
  · refine (resting.reopens saves).imp fun _ st' opened => ?_
    refine ⟨opened.1, ⟨h, tree, opened.2.1⟩, ?_⟩
    rw [opened.2.2.2.1, saves.storedIndex]
    exact Nat.le_max_right _ _

/-! ### Closing it again -/

theorem mirrors_start (frames : Nat → Page) :
    Mirrors (unopened storage.bootstrap) (.start storage.bootstrap frames) :=
  ⟨.start _ _, rfl, rfl, rfl, rfl, rfl⟩

structure Running (storage : Storage Page) (st : BTree) {h : Nat} (tree : Tree h)
    (contents : Contents) : Prop where
  guarded : Guarded 13 (unopened storage.bootstrap) st
  resting : Resting st tree contents

namespace Running

theorem mirrors (running : Running storage st tree contents) {frames : Nat → Page}
    (hosted : Hosted (unopened storage.bootstrap) (.start storage.bootstrap frames) st session) :
    Mirrors st session :=
  hosted.mirrors (mirrors_start frames) (running.guarded.orderly trivial) (by decide)

theorem hosted (running : Running storage st tree contents) (frames : Nat → Page)
    (some : STORAGE_MANAGER_META_PAGE_ID < storage.storedIndex)
    (fresh : ∀ pid, storage.storedIndex ≤ pid → storage.disk pid = .blank) :
    ∃ session, Hosted (unopened storage.bootstrap) (.start storage.bootstrap frames) st session := by
  obtain ⟨session, hosted, -⟩ := running.guarded.hosted (mirrors_start frames) (by decide)
    (fun pid member => absurd member (Multiset.notMem_zero pid))
    some fresh
  exact ⟨session, hosted⟩

/-- The destructor leaves the tree in the file. -/
theorem saves (running : Running storage st tree contents) {frames : Nat → Page}
    (hosted : Hosted (unopened storage.bootstrap) (.start storage.bootstrap frames) st session) :
    Saves (session.pool.destroy fun _ => .whole) st := by
  have mirrors := running.mirrors hosted
  refine ⟨(BufferPool.destroy_storedIndex _).trans mirrors.storedIndex, fun pid settled => ?_⟩
  rw [← mirrors.array]
  exact mirrors.sincere.destroy (by rw [mirrors.unmarked, settled]) fun _ _ => rfl

end Running

theorem Resumes.running {more : List Usage} {st₀ : BTree} {results : List (Outcome × List (List Byte))}
    (resumes : Resumes storage contents)
    (constructed : BTree.construct (unopened storage.bootstrap) = .ok () st₀)
    (returned : useAll more st₀ = .ok results st)
    (fresh : Fresh contents (more.map Usage.operation)) (addressable : Addressable st) :
    ∃ (h : Nat) (tree : Tree h), Running storage st tree (contents.applyAll (more.map Usage.operation)) := by
  obtain ⟨guarded, ⟨h₀, tree₀, resting₀⟩, -⟩ := resumes.construct.elim constructed
  obtain ⟨-, limited, h, tree, resting, -⟩ := useAll_rests resting₀ fresh _ _ returned
  exact ⟨h, tree, (guarded.weaken (by decide)).trans (limited addressable), resting⟩

/-- What the file stands for after any number of runs. -/
theorem Shutdown.resumes {usages : List Usage} (shutdown : Shutdown usages storage)
    (fresh : Fresh .empty (usages.map Usage.operation)) :
    Resumes storage (Contents.empty.applyAll (usages.map Usage.operation)) := by
  induction shutdown with
  | created => exact .inl ⟨rfl, rfl⟩
  | stopped shutdown constructed returned addressable hosted ih =>
    rw [List.map_append] at fresh ⊢
    obtain ⟨before, later⟩ := fresh_append.mp fresh
    obtain ⟨h, tree, running⟩ := (ih before).running constructed returned later addressable
    refine .inr ⟨_, h, tree, ?_, running.saves hosted⟩
    simpa only [Contents.applyAll, List.foldl_append] using running.resting

theorem Resumes.blank (resumes : Resumes storage contents) :
    STORAGE_MANAGER_META_PAGE_ID < storage.storedIndex ∧
    ∀ pid, storage.storedIndex ≤ pid → storage.disk pid = .blank := by
  rcases resumes with ⟨rfl, rfl⟩ | ⟨st, h, tree, resting, saves⟩
  · exact ⟨by decide, fun _ _ => rfl⟩
  · rw [saves.storedIndex]
    have range := resting.represents.bounded _ Tree.pid_mem_pids
    refine ⟨Nat.lt_of_le_of_lt (Nat.zero_le _) range.2, fun pid new => ?_⟩
    rw [saves.disk pid, resting.balanced.blank pid (.inr new)]
    exact Bool.eq_false_iff.mpr fun unmarked =>
      Nat.not_le_of_lt (resting.balanced.unmarked pid unmarked).2.1 new

variable {usages more : List Usage} {frames : Nat → Page} {st₀ : BTree}
    {results : List (Outcome × List (List Byte))}

theorem Shutdown.running (shutdown : Shutdown usages storage)
    (constructed : BTree.construct (unopened storage.bootstrap) = .ok () st₀)
    (returned : useAll more st₀ = .ok results st)
    (fresh : Fresh .empty ((usages ++ more).map Usage.operation)) (addressable : Addressable st) :
    ∃ (h : Nat) (tree : Tree h), Running storage st tree
      (Contents.empty.applyAll ((usages ++ more).map Usage.operation)) := by
  rw [List.map_append] at fresh ⊢
  obtain ⟨before, later⟩ := fresh_append.mp fresh
  simpa only [Contents.applyAll, List.foldl_append] using
    (shutdown.resumes before).running constructed returned later addressable

/-! ### The database -/

theorem hosted_firstRun :
    ∃ (st₀ st : BTree) (results : List (Outcome × List (List Byte))) (session : Session Page),
    BTree.construct (unopened Storage.created.bootstrap) = .ok () st₀ ∧
      useAll firstRun st₀ = .ok results st ∧ st.newPageOffsetIndex = 7 ∧
      Addressable st ∧ Hosted (unopened Storage.created.bootstrap)
        (.start Storage.created.bootstrap fun _ => .blank) st session := by
  have ran : Ran (BTree.construct >>= fun _ => useAll firstRun) (unopened Storage.created.bootstrap)
      fun _ st => st.newPageOffsetIndex = 7 := by
    decide +kernel
  rw [ran_bind] at ran
  obtain ⟨_, st₀, constructed, results, st, returned, counter⟩ := ran
  have addressable : Addressable st := by
    rw [Addressable, counter]
    decide
  obtain ⟨h, tree, running⟩ := Shutdown.created.running constructed returned fresh_varied addressable
  obtain ⟨session, hosted⟩ := running.hosted (fun _ => .blank) (by decide) fun _ _ => rfl
  exact ⟨st₀, st, results, session, constructed, returned, counter, addressable, hosted⟩

/-- However large the tree gets, the pool serves all its requests. After each use no frame is pinned,
and the pool shows every page, except for internal pages that the tree has no more. -/
theorem pool_suffices (shutdown : Shutdown usages storage)
    (constructed : BTree.construct (unopened storage.bootstrap) = .ok () st₀)
    (returned : useAll more st₀ = .ok results st)
    (fresh : Fresh .empty ((usages ++ more).map Usage.operation)) (addressable : Addressable st) :
    (∃ session, Hosted (unopened storage.bootstrap) (.start storage.bootstrap frames) st session) ∧
    ∀ session, Hosted (unopened storage.bootstrap) (.start storage.bootstrap frames) st session →
      session.pool.getTotalPinnedPages = 0 ∧
      ∀ pid, pid ≠ STORAGE_MANAGER_META_PAGE_ID → pid ∈ st.pids ∨ (∀ page, st.pages pid ≠ .internal page) →
        ∃ pointer pool, session.pool.requestPage .whole .whole pid = (.ok pointer, pool) ∧
          pool.frames pointer = st.pages pid := by
  obtain ⟨h, tree, running⟩ := shutdown.running constructed returned fresh addressable
  obtain ⟨some, blank⟩ := (shutdown.resumes (fresh_append.mp (List.map_append ▸ fresh)).1).blank
  refine ⟨running.hosted frames some blank, fun session hosted => ?_⟩
  have mirrors := running.mirrors hosted
  have idle : st.ledger.held = 0 := running.resting.balanced.held
  have none : session.holds = [] := by simpa [idle] using mirrors.held
  refine ⟨mirrors.sincere.consistent.getTotalPinnedPages none, fun pid other known => ?_⟩
  rw [running.resting.represents.pids] at known
  have grants : st.ledger.Grants 13 pid := by
    refine ⟨by simp [idle], other, fun unmarked => ?_⟩
    rw [running.resting.settled known] at unmarked
    cases unmarked
  obtain ⟨pointer, pool, answer, shows, -⟩ := mirrors.served grants (by decide)
  exact ⟨pointer, pool, answer, shows⟩

theorem pool_suffices_firstRun : ∃ st : BTree,
    (∃ session, Hosted (unopened Storage.created.bootstrap)
      (.start Storage.created.bootstrap fun _ => .blank) st session) ∧
      ∀ session, Hosted (unopened Storage.created.bootstrap)
        (.start Storage.created.bootstrap fun _ => .blank) st session →
        session.pool.getTotalPinnedPages = 0 ∧
        ∀ pid, pid ≠ STORAGE_MANAGER_META_PAGE_ID → pid ∈ st.pids ∨ (∀ page, st.pages pid ≠ .internal page) →
          ∃ pointer pool, session.pool.requestPage .whole .whole pid = (.ok pointer, pool) ∧
            pool.frames pointer = st.pages pid := by
  obtain ⟨st₀, st, results, session, constructed, returned, -, addressable, hosted⟩ := hosted_firstRun
  exact ⟨st, pool_suffices .created constructed returned fresh_varied addressable⟩

/-- The reopened tree has the same root and the same pages, below the ids that are handed out next, and
every search and every read of its stream return what they would have returned before. -/
theorem restart_same (shutdown : Shutdown usages storage)
    (constructed : BTree.construct (unopened storage.bootstrap) = .ok () st₀)
    (returned : useAll more st₀ = .ok results st)
    (fresh : Fresh .empty ((usages ++ more).map Usage.operation)) (addressable : Addressable st)
    (hosted : Hosted (unopened storage.bootstrap) (.start storage.bootstrap frames) st session) :
    Ran construct (unopened (session.pool.destroy fun _ => .whole).bootstrap) fun _ st' =>
      st'.rootPageId = st.rootPageId ∧ st'.pids = st.pids ∧
        (∀ pid, st.pages pid ≠ .blank → pid < st'.newPageOffsetIndex) ∧
        (∀ pid, pid ∈ st.pids ∨ (∀ page, st.pages pid ≠ .internal page) → st'.pages pid = st.pages pid) ∧
          ∀ key sizes, Ran (use (.read key sizes)) st fun result _ =>
            Ran (use (.read key sizes)) st' fun result' _ => result' = result := by
  obtain ⟨h, tree, running⟩ := shutdown.running constructed returned fresh addressable
  have resting := running.resting
  have represents := resting.represents
  refine (resting.reopens (running.saves hosted)).imp fun _ st' opened => ?_
  obtain ⟨-, resting', root, counter, kept⟩ := opened
  rw [resting'.represents.pids, represents.pids]
  refine ⟨root, rfl, fun pid used => ?_, fun pid known => kept pid (resting.settled known),
    fun key sizes => ?_⟩
  · rw [counter]
    exact Nat.lt_of_not_le fun new => used (resting.balanced.blank pid (.inr new))
  · refine (resting.read addressable key sizes).imp fun result _ before => ?_
    refine (resting'.read (by rwa [Addressable, counter]) key sizes).imp fun result' _ after => ?_
    obtain ⟨leaf, member, located, rfl⟩ := before
    obtain ⟨leaf', member', located', rfl⟩ := after
    have same := (represents.leafOf member located).symm.trans (represents.leafOf member' located')
    rw [Option.some.inj same]

theorem restart_same_firstRun : ∃ (st : BTree) (session : Session Page),
    Ran construct (unopened (session.pool.destroy fun _ => .whole).bootstrap) fun _ st' =>
      st'.rootPageId = st.rootPageId ∧ st'.pids = st.pids ∧
        (∀ pid, st.pages pid ≠ .blank → pid < st'.newPageOffsetIndex) ∧
        (∀ pid, pid ∈ st.pids ∨ (∀ page, st.pages pid ≠ .internal page) → st'.pages pid = st.pages pid) ∧
          ∀ key sizes, Ran (use (.read key sizes)) st fun result _ =>
            Ran (use (.read key sizes)) st' fun result' _ => result' = result := by
  obtain ⟨st₀, st, results, session, constructed, returned, -, addressable, hosted⟩ := hosted_firstRun
  exact ⟨st, session, restart_same .created constructed returned fresh_varied addressable hosted⟩

theorem Resting.finds (resting : Resting st tree contents) (addressable : Addressable st) (key : Nat) :
    Ran (BTree.search key) st fun stream st' => (stream.isEOF = false ↔ (contents key).isSome) ∧
      ∀ sizes, Ran (stream.nextAll sizes) st' fun result _ =>
        result.1 = PayloadStream.pieces sizes ((contents key).getD []) := by
  refine (resting.search addressable key).imp fun stream st' searched => ?_
  obtain ⟨agrees, yields, -⟩ := searched
  have ended := yields.isEOF
  rw [← agrees.pages, ← agrees.counter] at yields
  refine ⟨?_, fun sizes => PayloadStream.nextAll_pieces sizes yields⟩
  obtain ⟨payloads, stores, lists⟩ := resting.keeps
  cases found : contents key with
  | none =>
    rw [found] at ended
    simpa using ended
  | some payload =>
    rw [found] at ended
    have nonempty := stores.nonempty addressable ((lists.mem key payload).mp found).1
    simpa using mt ended.mp nonempty

/-- Over any number of runs, the database is the finite map of all that has been done to it. -/
theorem restarts_refine_finite_map {usages : List Usage} (shutdown : Shutdown usages storage)
    (fresh : Fresh .empty (usages.map Usage.operation)) :
    Ran construct (unopened storage.bootstrap) fun _ st => Addressable st → ∀ key,
      Ran (search key) st fun stream st' =>
        (stream.isEOF = false ↔ (Contents.empty.applyAll (usages.map Usage.operation) key).isSome) ∧
        ∀ sizes, Ran (stream.nextAll sizes) st' fun result _ =>
          result.1 = PayloadStream.pieces sizes
            ((Contents.empty.applyAll (usages.map Usage.operation) key).getD []) := by
  refine (shutdown.resumes fresh).construct.imp fun _ st opened addressable key => ?_
  obtain ⟨-, ⟨h, tree, resting⟩, -⟩ := opened
  exact resting.finds addressable key

theorem restarts_refine_finite_map_firstRun : ∃ storage, Shutdown firstRun storage ∧
    Ran construct (unopened storage.bootstrap) fun _ st => Addressable st → ∀ key,
      Ran (search key) st fun stream st' =>
        (stream.isEOF = false ↔ (Contents.empty.applyAll (firstRun.map Usage.operation) key).isSome) ∧
        ∀ sizes, Ran (stream.nextAll sizes) st' fun result _ =>
          result.1 = PayloadStream.pieces sizes
            ((Contents.empty.applyAll (firstRun.map Usage.operation) key).getD []) := by
  obtain ⟨st₀, st, results, session, constructed, returned, -, addressable, hosted⟩ := hosted_firstRun
  have shutdown : Shutdown ([] ++ firstRun) _ := .stopped .created constructed returned addressable hosted
  exact ⟨_, shutdown, restarts_refine_finite_map shutdown fresh_varied⟩

end Datashil
