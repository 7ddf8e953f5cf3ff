import Datashil.Proofs.Accounts
import Datashil.Proofs.Histories

/-! The accesses of an insertion: the path down to the leaf stays pinned until nothing
above has to be split any more. -/

namespace Datashil
open Library LeafPage BTree

theorem erase_second (first second : Nat) (rest : Multiset Nat) :
    (first ::ₘ second ::ₘ rest).erase second = first ::ₘ rest := by
  rw [Multiset.cons_swap, Multiset.erase_cons_head]

theorem erase_third (first second third : Nat) (rest : Multiset Nat) :
    (first ::ₘ second ::ₘ third ::ₘ rest).erase third = first ::ₘ second ::ₘ rest := by
  rw [Multiset.cons_swap second, Multiset.cons_swap first, Multiset.erase_cons_head]

namespace Tree
variable {cut : Nat → Nat → Prop} {low high key size limit : Nat} {h : Nat} {tree : Tree h}

/-- The page to write to is the only one that stays pinned. -/
def Writable (limit : Nat) (st : BTree) (outcome : SplitReport × Nat) (st' : BTree) : Prop :=
  Accounted limit st (outcome.2 ::ₘ st.ledger.held) {outcome.2} st'

private theorem findPageToWrite_leaf_accounted {st : BTree} {page : LeafPage} {fuel : Nat}
    (stored : st.pages page.pageId = .leaf page)
    (live : st.Live page.pageId) (fresh : st.Unclaimed st.newPageOffsetIndex)
    (room : st.ledger.held.card + 3 ≤ limit) :
    Whenever (findPageToWrite (fuel + 1) page.pageId key size) st (Writable limit st) := by
  have read := ((Accounted.refl limit st).request page.pageId (by omega) live (by simp)).read
    page.pageId (by simp)
  simp only [findPageToWrite, whenever_bind, whenever_requestPage, whenever_readPage, pages_record, stored]
  split
  · rw [whenever_pure]
    exact read.weaken (by simp)
  · rcases halves : page.handleSplit (fun _ => 0) st.newPageOffsetIndex with ⟨left, right, boundaryKey⟩
    have allocated := read.allocate (by simp; omega) fresh (by simp)
    have written := (allocated.write page.pageId (.leaf left) (by simp)).write st.newPageOffsetIndex
      (right.elim .blank .leaf) (by simp)
    simp only [whenever_bind, whenever_allocateNewPage, newPageOffsetIndex_record, halves, whenever_writePage]
    split
    · simp only [whenever_bind, whenever_releasePage, whenever_pure, Writable]
      have released := written.mark page.pageId (by simp)
      rw [erase_second] at released
      exact released.weaken (by simp)
    · simp only [whenever_bind, whenever_releasePage, whenever_pure, Writable]
      have released := written.mark st.newPageOffsetIndex (by simp)
      rw [newPageOffsetIndex_record, newPageOffsetIndex_record, Multiset.erase_cons_head] at released
      exact released.weaken (by simp)

/-- What an insertion has to know of the ledger: the pages of the tree and those to come may be
requested. -/
structure Insertable (limit : Nat) (st : BTree) {h : Nat} (tree : Tree h) : Prop where
  live : ∀ pid ∈ tree.pids, st.Live pid
  fresh : ∀ pid, st.newPageOffsetIndex ≤ pid → st.Unclaimed pid
  room : st.ledger.held.card + (h + 3) ≤ limit

theorem findPageToWrite_accounted {fuel : Nat} (enough : h < fuel) {st : BTree} (holds : Holds st.pages tree)
    (nodup : tree.pids.Nodup) (bounded : ∀ pid ∈ tree.pids, pid < st.newPageOffsetIndex)
    (valid : ∀ leaf ∈ tree.leaves, leaf.Valid)
    (insertable : Insertable limit st tree) :
    Whenever (findPageToWrite fuel tree.pid key size) st (Writable limit st) := by
  induction h generalizing fuel st with
  | zero =>
    obtain ⟨fuel, rfl⟩ := Nat.exists_eq_add_of_lt enough
    rw [Nat.zero_add]
    exact findPageToWrite_leaf_accounted holds (insertable.live _ (by simp))
      (insertable.fresh _ (Nat.le_refl _)) insertable.room
  | succ h ih =>
    obtain ⟨fuel, rfl⟩ := Nat.exists_eq_add_of_lt (show 0 < fuel by omega)
    obtain ⟨id, row⟩ := tree
    obtain ⟨left, child, right, rfl, place⟩ := row.exists_found key
    have apart := focused nodup
    obtain ⟨⟨page, stored, named, shown⟩, -, here, -⟩ := holds_focus.mp holds
    have childMem : child ∈ (Row.close left child right).children := by simp
    have room := insertable.room
    have read := ((Accounted.refl limit st).request id (by omega) (insertable.live id (by simp))
      (by simp)).read id (by simp)
    simp only [Nat.zero_add, pid_node, findPageToWrite, whenever_bind, whenever_requestPage,
      whenever_readPage, pages_record, stored,
      shown.getChildPageId (found_pids place)]
    have below : Ran (findPageToWrite fuel child.pid key size)
        ((st.record (.request id)).record (.read id)) _ :=
      findPageToWrite_spec (by omega) here apart.nodup
        (fun pid inside => bounded pid (mem_pids_child childMem inside))
      (fun leaf inside => valid leaf (mem_leaves_node.mpr ⟨child, childMem, inside⟩))
    have recursive : Whenever (findPageToWrite fuel child.pid key size)
        ((st.record (.request id)).record (.read id)) _ :=
      ih (by omega) here apart.nodup (fun pid inside => bounded pid (mem_pids_child childMem inside))
      (fun leaf inside => valid leaf (mem_leaves_node.mpr ⟨child, childMem, inside⟩))
      ⟨fun pid inside => insertable.live pid (mem_pids_child childMem inside),
        insertable.fresh, by simp [Ledger.step]; omega⟩
    refine below.whenever (recursive.imp ?_)
    rintro ⟨report, target⟩ st' accounted ⟨child', split', -, prepared, state⟩
    have kept : st'.pages id = .internal page :=
      (state.frame id apart.node (bounded id (by simp))).trans stored
    have fresh := insertable.fresh st'.newPageOffsetIndex state.grows
    have descended : Accounted limit st (target ::ₘ id ::ₘ st.ledger.held) {target} st' :=
      (read.trans accounted).weaken (by simp)
    split
    · simp only [whenever_bind, whenever_readInternal]
      rintro other found
      obtain rfl : page = other := by simpa [kept] using found
      have reread := descended.read id (by simp)
      split
      · simp only [whenever_bind, whenever_writePage, whenever_releasePage, whenever_pure, Writable, named]
        have released := (reread.write id
          (.internal (page.insertKeyValue report.boundaryKey report.newPageId)) (by simp)).mark id
          (by simp)
        rw [erase_second] at released
        exact released.weaken (by simp)
      · rcases halves : page.handleSplit (fun _ => 0) report.boundaryKey report.newPageId
          st'.newPageOffsetIndex with
          ⟨oldPage, newPage, boundaryKey⟩
        have allocated := reread.allocate (by simp; omega) fresh (by simp +contextual)
        have written := (allocated.write id (.internal oldPage) (by simp)).write st'.newPageOffsetIndex
          (.internal newPage) (by simp)
        simp only [whenever_bind, whenever_allocateNewPage, newPageOffsetIndex_record, halves,
          whenever_writePage, whenever_releasePage,
          whenever_pure, Writable]
        have marked := written.mark id (by simp)
        rw [newPageOffsetIndex_record, erase_third] at marked
        have released := marked.mark st'.newPageOffsetIndex (by simp)
        rw [Multiset.erase_cons_head] at released
        exact released.weaken (by simp)
    · simp only [whenever_bind, whenever_releasePage, whenever_pure, Writable]
      have released := descended.release id (by simp)
      rwa [erase_second] at released

end Tree

namespace Accounted
variable {limit : Nat} {st st₁ : BTree} {held : Multiset Nat} {touched : Set Nat} {pid : Nat}

theorem setRoot (accounted : Accounted limit st held touched st₁) (rootPageId : Nat) :
    Accounted limit st held touched { st₁ with rootPageId } :=
  ⟨.setRoot accounted.guarded, accounted.held, accounted.unmarked⟩

theorem setNewRoot (accounted : Accounted limit st held touched st₁) (room : held.card < limit)
    (live : st.Live DATABASE_META_PAGE_ID)
    (kept : DATABASE_META_PAGE_ID ∈ touched → DATABASE_META_PAGE_ID ∈ held) (newRoot : Nat) :
    Whenever (BTree.setNewRoot newRoot) st₁ fun _ st' =>
      Accounted limit st held touched st' ∧ st'.rootPageId = newRoot ∧
        st'.newPageOffsetIndex = st₁.newPageOffsetIndex := by
  have read := (accounted.request DATABASE_META_PAGE_ID room live kept).read DATABASE_META_PAGE_ID (by simp)
  simp only [BTree.setNewRoot, whenever_bind, whenever_requestPage, whenever_readPage, pages_record]
  split
  · rename_i magicNumber _ _
    have written := read.write DATABASE_META_PAGE_ID (.databaseMeta magicNumber newRoot) (by simp)
    have released := written.mark DATABASE_META_PAGE_ID (by simp)
    rw [Multiset.erase_cons_head] at released
    simp only [whenever_bind, whenever_writePage, whenever_releasePage, whenever_modify]
    refine ⟨(released.weaken ?_).setRoot newRoot, by simp⟩
    rintro other ⟨rfl | inside, away⟩
    · exact absurd rfl away
    · exact inside
  · exact whenever_throw

theorem setOverflowInfo (pid : Nat) (accounted : Accounted limit st held touched st₁)
    (pinned : pid ∈ held) (address overflow overflowPage : Nat) :
    Whenever (BTree.setOverflowInfo pid address overflow overflowPage) st₁ fun _ st' =>
      Accounted limit st held (insert pid touched) st' ∧ st'.newPageOffsetIndex = st₁.newPageOffsetIndex := by
  have read := accounted.read pid pinned
  simp only [BTree.setOverflowInfo, whenever_bind, whenever_readPage]
  split
  · exact whenever_writePage.mpr ⟨read.write pid _ pinned, rfl⟩
  · exact whenever_writePage.mpr ⟨read.write pid _ pinned, rfl⟩
  · exact whenever_throw

/-- Every turn of the loop pins the next overflow page and lets go of the one before. -/
theorem writeOverflowPages (fuel : Nat) {toWritePage : Nat}
    (accounted : Accounted limit st (toWritePage ::ₘ held) {toWritePage} st₁)
    (room : held.card + 1 < limit) (fresh : ∀ pid, st₁.newPageOffsetIndex ≤ pid → st.Unclaimed pid)
    (writeStatus : WriteStatus) (buffer : Pointer)
    (bufferSize : Nat) :
    Whenever (BTree.writeOverflowPages fuel toWritePage writeStatus buffer bufferSize) st₁
      fun last st' =>
      Accounted limit st (last ::ₘ held) {last} st' := by
  induction fuel generalizing st₁ toWritePage writeStatus buffer bufferSize with
  | zero =>
    rw [BTree.writeOverflowPages]
    split
    · exact whenever_throw
    · exact whenever_pure.mpr accounted
  | succ fuel ih =>
    rw [BTree.writeOverflowPages]
    split
    · have allocated := accounted.allocate (by simpa using room) (fresh _ (Nat.le_refl _))
        (by simp +contextual)
      have written := allocated.write st₁.newPageOffsetIndex
        (.overflow ⟨st₁.newPageOffsetIndex, 0, 0, fun _ => 0⟩) (by simp)
      simp only [whenever_bind, whenever_allocateNewPage, whenever_writePage]
      refine (written.setOverflowInfo toWritePage (by simp) writeStatus.overflowInfoStoreAddress 1
        st₁.newPageOffsetIndex).imp ?_
      rintro _ st₂ ⟨linked, counter⟩
      simp only [whenever_releasePage, whenever_readOverflow]
      intro page stored
      have marked := linked.mark toWritePage (by simp)
      rw [erase_second] at marked
      have filled := (marked.read st₁.newPageOffsetIndex (by simp)).write st₁.newPageOffsetIndex
        (.overflow (page.writeChunkOverflow buffer bufferSize).1) (by simp)
      refine ih (filled.weaken ?_) ?_ _ _ _
      · rintro other (rfl | ⟨inside, away⟩)
        · rfl
        · simp at inside away
          tauto
      · intro pid above
        apply fresh
        simp only [newPageOffsetIndex_record, newPageOffsetIndex_setPage, counter,
          newPageOffsetIndex_allocated] at above
        omega
    · exact whenever_pure.mpr accounted

theorem growRoot {target : Nat} (accounted : Accounted limit st (target ::ₘ held) {target} st₁)
    (room : held.card + 2 < limit)
    (live : st.Live DATABASE_META_PAGE_ID)
    (apart : DATABASE_META_PAGE_ID ≠ target ∧ DATABASE_META_PAGE_ID ≠ st₁.newPageOffsetIndex)
    (fresh : st.Unclaimed st₁.newPageOffsetIndex) (report : SplitReport) :
    Whenever (BTree.growRoot report) st₁ fun _ st' =>
      Accounted limit st (target ::ₘ held) {target} st' ∧
        st₁.newPageOffsetIndex ≤ st'.newPageOffsetIndex := by
  have allocated := accounted.allocate (by simp; omega) fresh (by simp +contextual)
  have written := allocated.write st₁.newPageOffsetIndex
    (.internal (InternalPage.makePage (fun _ => 0) (Memory.ofList [report.boundaryKey]) 0
    (Memory.ofList [st₁.rootPageId, report.newPageId]) 0 1 st₁.newPageOffsetIndex)) (by simp)
  simp only [BTree.growRoot, whenever_bind, whenever_allocateNewPage, whenever_get, whenever_writePage,
    rootPageId_allocated]
  refine (written.setNewRoot (by simp; omega) live (by simp [apart]) st₁.newPageOffsetIndex).imp ?_
  rintro _ st₂ ⟨changed, root, counter⟩
  have released := changed.mark st₁.newPageOffsetIndex (by simp)
  rw [Multiset.erase_cons_head] at released
  simp only [whenever_releasePage, root, newPageOffsetIndex_record, counter, newPageOffsetIndex_setPage,
    newPageOffsetIndex_allocated]
  exact ⟨released.weaken (by simp), Nat.le_succ _⟩

end Accounted

variable {cut : Nat → Nat → Prop} {st : BTree} {h : Nat} {tree : Tree h} {key limit : Nat}

theorem insert_accounted (represents : Represents cut st tree) (buffer : List Byte)
    (insertable : Tree.Insertable limit st tree) (metaLive : st.Live DATABASE_META_PAGE_ID) :
    Whenever (BTree.insert buffer key) st fun _ st' => Accounted limit st st.ledger.held ∅ st' := by
  have bounded : ∀ pid ∈ tree.pids, pid < st.newPageOffsetIndex :=
    fun pid inside => (represents.bounded pid inside).2
  have room := insertable.room
  simp only [BTree.insert, whenever_bind, whenever_get, represents.root]
  have prepares : Ran (BTree.findPageToWrite _ tree.pid key buffer.length) st _ :=
    Tree.findPageToWrite_spec represents.fuel represents.holds represents.nodup bounded represents.valid
  refine prepares.whenever
    ((Tree.findPageToWrite_accounted represents.fuel represents.holds represents.nodup bounded
    represents.valid
    insertable).imp ?_)
  rintro ⟨report, target⟩ st₁ accounted ⟨tree₁, split, -, placed, state⟩
  have inside := placed.target_mem
  have low := (represents.bounded _ Tree.pid_mem_pids)
  have grows := state.grows
  have apart : DATABASE_META_PAGE_ID ≠ target ∧ DATABASE_META_PAGE_ID ≠ st₁.newPageOffsetIndex := by
    refine ⟨?_, by omega⟩
    cases state.mem inside with
    | inl old =>
      have := (represents.bounded target old).1
      omega
    | inr new => omega
  have fresh : ∀ pid, st₁.newPageOffsetIndex ≤ pid → st.Unclaimed pid :=
    fun pid above => insertable.fresh pid (Nat.le_trans grows above)
  rw [whenever_when]
  have grown : Whenever (if report.wasSplit then BTree.growRoot report else pure ()) st₁ fun _ st₂ =>
      Accounted limit st (target ::ₘ st.ledger.held) {target} st₂ ∧
        st₁.newPageOffsetIndex ≤ st₂.newPageOffsetIndex := by
    split
    · exact accounted.growRoot (by omega) metaLive apart (fresh _ (Nat.le_refl _)) report
    · exact whenever_pure.mpr ⟨accounted, Nat.le_refl _⟩
  refine grown.imp ?_
  rintro _ st₂ ⟨accounted, grows⟩
  simp only [whenever_bind, whenever_readLeaf]
  intro leaf stored
  have written := (accounted.read target (by simp)).write target
    (.leaf (leaf.writeChunkLeaf (.ofBuffer buffer) buffer.length key none).1) (by simp)
  simp only [whenever_writePage]
  refine ((written.weaken (by simp)).writeOverflowPages buffer.length (by omega)
    (fun pid above => fresh pid (Nat.le_trans grows above)) _ _ _).imp ?_
  intro last st₃ accounted
  have released := accounted.mark last (by simp)
  rw [Multiset.erase_cons_head] at released
  simp only [whenever_releasePage, whenever_pure]
  exact released.weaken (by simp)

end Datashil
