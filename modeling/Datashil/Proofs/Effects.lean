import Datashil.History
import Datashil.Proofs.Accounts

/-! What the programs of the tree do to a store, one after the other and in whatever state: how
often they request a page, how many pages they allocate, and that what they write into overflow
pages are flags of one byte. -/

namespace Datashil
open Library BTree

def Access.isRequest : Access → Bool
  | .request _ => true
  | _ => false

/-- How often a page has been requested. Allocation requests the new page. -/
def BTree.requests (st : BTree) : Nat := st.accesses.countP Access.isRequest

def Page.Flagged : Page → Prop
  | .overflow page => page.overflow < 256
  | _ => True

def BTree.Flagged (st : BTree) : Prop := ∀ pid, (st.pages pid).Flagged

/-- A store that comes of another one with some requests and some new pages at most. All that has
to be known of every program of the tree is in here, so that each is gone through once. -/
structure Effects (requested allocated : Nat) (st st' : BTree) : Prop where
  requests : st'.requests ≤ st.requests + requested
  allocates : st'.newPageOffsetIndex ≤ st.newPageOffsetIndex + allocated
  grows : st.newPageOffsetIndex ≤ st'.newPageOffsetIndex
  flagged : st.Flagged → st'.Flagged

/-- In whatever state it starts, a program has such effects, if it returns. -/
def Spends (requested allocated : Nat) {α : Type} (program : TreeM α) : Prop :=
  ∀ st, Whenever program st fun _ st' => Effects requested allocated st st'

variable {α β : Type} {requested allocated requested' allocated' pid : Nat} {st middle st' : BTree}

theorem Effects.refl (requested allocated : Nat) (st : BTree) : Effects requested allocated st st :=
  ⟨Nat.le_add_right _ _, Nat.le_add_right _ _, Nat.le_refl _, id⟩

theorem Effects.trans (first : Effects requested allocated st middle)
    (second : Effects requested' allocated' middle st') :
    Effects (requested' + requested) (allocated' + allocated) st st' := by
  obtain ⟨requests, allocates, grows, flagged⟩ := first
  obtain ⟨requests', allocates', grows', flagged'⟩ := second
  exact ⟨by omega, by omega, by omega, fun before => flagged' (flagged before)⟩

theorem Effects.le (effects : Effects requested allocated st st') (fewer : requested ≤ requested')
    (less : allocated ≤ allocated') :
    Effects requested' allocated' st st' := by
  obtain ⟨requests, allocates, grows, flagged⟩ := effects
  exact ⟨by omega, by omega, grows, flagged⟩

theorem Effects.record (st : BTree) (access : Access) :
    Effects (if access.isRequest then 1 else 0) 0 st (st.record access) := by
  refine ⟨Nat.le_of_eq ?_, Nat.le_refl _, Nat.le_refl _, id⟩
  simp [BTree.requests, BTree.record, List.countP_cons]

namespace Spends

theorem le {program : TreeM α} (spends : Spends requested allocated program) (fewer : requested ≤ requested')
    (less : allocated ≤ allocated') : Spends requested' allocated' program :=
  fun st => (spends st).imp fun _ _ effects => effects.le fewer less

theorem pure (result : α) : Spends requested allocated (Pure.pure result : TreeM α) :=
  fun st => whenever_pure.mpr (.refl _ _ st)

theorem throw (failure : Failure) : Spends requested allocated (MonadExcept.throw failure : TreeM α) :=
  fun _ => whenever_throw

theorem get : Spends 0 0 (MonadState.get : TreeM BTree) := fun st => whenever_get.mpr (.refl _ _ st)

/-- What a program spends is taken from what is left for it and the rest together. -/
theorem bind {first : TreeM α} {next : α → TreeM β} (spends : Spends requested allocated first)
    (later : ∀ result, Spends requested' allocated' (next result)) :
    Spends (requested' + requested) (allocated' + allocated) (first >>= next) :=
  fun st => whenever_bind.mpr ((spends st).imp fun result middle effects =>
    (later result middle).imp fun _ _ more => effects.trans more)

/-! ### Accesses -/

theorem setRoot (rootPageId : Nat) : Spends 0 0 (modify fun st => { st with rootPageId } : TreeM Unit) :=
  fun _ => whenever_modify.mpr ⟨Nat.le_refl _, Nat.le_refl _, Nat.le_refl _, id⟩

theorem requestPage (pid : Nat) : Spends 1 0 (BTree.requestPage pid) :=
  fun st => whenever_requestPage.mpr (.record st (.request pid))

theorem releasePage (pid : Nat) (isDirty : Bool) : Spends 0 0 (BTree.releasePage pid isDirty) :=
  fun st => whenever_releasePage.mpr (.record st (.release pid isDirty))

theorem readPage (pid : Nat) : Spends 0 0 (BTree.readPage pid) :=
  fun st => whenever_readPage.mpr (.record st (.read pid))

theorem writePage {page : Page} (plain : page.Flagged) : Spends 0 0 (BTree.writePage pid page) := by
  intro st
  refine whenever_writePage.mpr ⟨?_, Nat.le_refl _, Nat.le_refl _, fun flagged other => ?_⟩
  · simp [BTree.requests, BTree.record, BTree.setPage, Access.isRequest]
  · simp only [pages_record, pages_setPage]
    split
    · exact plain
    · exact flagged other

theorem writeMeta {magicNumber rootPageId : Nat} :
    Spends 0 0 (BTree.writePage pid (.databaseMeta magicNumber rootPageId)) :=
  writePage trivial

theorem writeLeaf {page : LeafPage} : Spends 0 0 (BTree.writePage pid (.leaf page)) := writePage trivial

theorem writeInternal {page : InternalPage} : Spends 0 0 (BTree.writePage pid (.internal page)) :=
  writePage trivial

theorem allocateNewPage : Spends 1 1 BTree.allocateNewPage := by
  intro st
  refine whenever_allocateNewPage.mpr ⟨?_, Nat.le_refl _, Nat.le_succ _, fun flagged other => ?_⟩
  · simp [BTree.requests, BTree.allocated, BTree.record, BTree.setPage, List.countP_cons, Access.isRequest]
  · rw [pages_allocated]
    split
    · exact trivial
    · exact flagged other

theorem readInternal (pid : Nat) : Spends 0 0 (BTree.readInternal pid) := by
  refine .bind (readPage pid) fun page => ?_
  split
  · exact .pure _
  · exact .throw _

theorem readLeaf (pid : Nat) : Spends 0 0 (BTree.readLeaf pid) := by
  refine .bind (readPage pid) fun page => ?_
  split
  · exact .pure _
  · exact .throw _

theorem readOverflow (pid : Nat) : Spends 0 0 (BTree.readOverflow pid) := by
  refine .bind (readPage pid) fun page => ?_
  split
  · exact .pure _
  · exact .throw _

theorem readBytes (pid : Nat) : Spends 0 0 (BTree.readBytes pid) := by
  refine .bind (readPage pid) fun page => ?_
  split
  · exact .pure _
  · exact .pure _
  · exact .throw _

theorem setNewRoot (newRootId : Nat) : Spends 1 0 (BTree.setNewRoot newRootId) := by
  refine .bind (requestPage _) fun _ => .bind (readPage _) fun page => ?_
  split
  · exact .bind writeMeta fun _ => .bind (releasePage _ _) fun _ => setRoot _
  · exact .throw _

theorem construct : Spends 2 1 BTree.construct := by
  have create : Spends 1 1 construct.create :=
    .bind allocateNewPage fun _ => .bind (setRoot _) fun _ => .bind writeLeaf fun _ =>
      .bind (releasePage _ _) fun _ => .bind writeMeta fun _ => releasePage _ _
  refine .bind (requestPage _) fun _ => .bind (readPage _) fun page => ?_
  split
  · split
    · exact .bind (setRoot _) fun _ => (releasePage _ _).le (Nat.zero_le _) (Nat.zero_le _)
    · exact create
  · exact create

/-! ### Insertion -/

/-- On each level, an insertion requests the page on the way, and allocates one more where it splits
it. -/
theorem findPageToWrite (fuel pid key size : Nat) :
    Spends (2 * fuel) fuel (BTree.findPageToWrite fuel pid key size) := by
  induction fuel generalizing pid with
  | zero => exact .throw _
  | succ fuel ih =>
    refine .le (.bind (requestPage _) fun _ => .bind (readPage _) fun page => ?_)
      (show 2 * fuel + 1 + 1 ≤ _ by omega) (Nat.le_refl (fuel + 1))
    split
    · rename_i leaf
      simp only
      split
      · exact .pure _
      · suffices splits : Spends 1 1 _ from splits.le (Nat.le_add_left _ _) (Nat.le_add_left _ _)
        refine .bind allocateNewPage fun newPid => .bind writeLeaf fun _ => .bind (writePage ?_) fun _ => ?_
        · cases (leaf.handleSplit (fun _ => 0) newPid).2.1 <;> trivial
        · split
          · exact .bind (releasePage _ _) fun _ => .pure _
          · exact .bind (releasePage _ _) fun _ => .pure _
    · refine .le (.bind (ih _) fun result => ?_) (Nat.le_of_eq (Nat.add_comm 1 _))
        (Nat.le_of_eq (Nat.add_comm 1 _))
      obtain ⟨report, toWritePage⟩ := result
      simp only
      split
      · refine .bind (readInternal _) fun page => ?_
        split
        · exact .bind writeInternal fun _ => .bind (releasePage _ _) fun _ => .pure _
        · exact .bind allocateNewPage fun _ => .bind writeInternal fun _ => .bind writeInternal fun _ =>
            .bind (releasePage _ _) fun _ => .bind (releasePage _ _) fun _ => .pure _
      · exact .bind (releasePage _ _) fun _ => .pure _
    · exact .throw _

theorem setOverflowInfo (pid address : Nat) {overflow : Nat} (byte : overflow < 256) (overflowPage : Nat) :
    Spends 0 0 (BTree.setOverflowInfo pid address overflow overflowPage) := by
  refine .bind (readPage _) fun page => ?_
  split
  · exact writeLeaf
  · exact writePage byte
  · exact .throw _

end Spends

/-- How many bytes a page of an overflow chain takes. -/
def OVERFLOW_ROOM : Nat := PAGE_SIZE - OVERFLOW_PAGE_HEADER_SIZE

def overflowPages (size : Nat) : Nat := (size + (OVERFLOW_ROOM - 1)) / OVERFLOW_ROOM

namespace OverflowPage

theorem overflowPages_written (page : OverflowPage) (buffer : Pointer) {size : Nat} (some : 0 < size) :
    overflowPages (size - (page.writeChunkOverflow buffer size).2.written) + 1 = overflowPages size := by
  have room : OVERFLOW_ROOM = 4078 := rfl
  simp only [writeChunkOverflow, overflowPages, PAGE_SIZE, OVERFLOW_PAGE_HEADER_SIZE, room]
  by_cases more : size + 18 > 4096
  · simp only [more, ite_true]
    omega
  · simp only [more, ite_false, u16]
    omega

theorem flagged_writeChunkOverflow {page : OverflowPage} (flagged : page.overflow < 256)
    (buffer : Pointer) (size : Nat) :
    (page.writeChunkOverflow buffer size).1.overflow < 256 := by
  rw [writeChunkOverflow]
  split
  · exact flagged
  · exact Nat.zero_lt_succ _

end OverflowPage

namespace Spends

/-- A page that is read and written again keeps its flag within a byte. -/
theorem fillOverflow {next : OverflowPage → TreeM α} (buffer : Pointer) (size : Nat)
    (later : ∀ page, Spends requested allocated (next page)) :
    Spends requested allocated (BTree.readOverflow pid >>= fun page =>
      BTree.writePage pid (.overflow (page.writeChunkOverflow buffer size).1) >>= fun _ => next page) := by
  intro st
  refine whenever_bind.mpr (whenever_readOverflow.mpr fun page stored =>
    whenever_bind.mpr (whenever_writePage.mpr ?_))
  refine (later page _).imp fun _ st' effects =>
    ⟨?_, effects.allocates, effects.grows, fun flagged => effects.flagged fun other => ?_⟩
  · have same := effects.requests
    simpa [BTree.requests, BTree.record, BTree.setPage, Access.isRequest] using same
  · have byte := flagged pid
    rw [stored] at byte
    simp only [pages_record, pages_setPage]
    split
    · exact OverflowPage.flagged_writeChunkOverflow byte buffer size
    · exact flagged other

theorem writeOverflowPages (fuel pid : Nat) (status : WriteStatus) (buffer : Pointer) (size : Nat) :
    Spends (overflowPages size) (overflowPages size)
      (BTree.writeOverflowPages fuel pid status buffer size) := by
  induction fuel generalizing pid status buffer size with
  | zero =>
    rw [BTree.writeOverflowPages]
    split
    · exact .throw _
    · exact .pure _
  | succ fuel ih =>
    rw [BTree.writeOverflowPages]
    split
    · rename_i some
      have empty : (0 : Nat) < 256 := by decide
      have one : (1 : Nat) < 256 := by decide
      obtain ⟨less, same⟩ : ∃ less, overflowPages size = less + 1 :=
        ⟨_, (OverflowPage.overflowPages_written ⟨0, 0, 0, fun _ => 0⟩ buffer some).symm⟩
      rw [same]
      refine .bind allocateNewPage fun newPid =>
        .bind (writePage (show Page.Flagged (.overflow ⟨newPid, 0, 0, fun _ => 0⟩) from empty)) fun _ =>
        .bind (setOverflowInfo _ _ one _) fun _ =>
        .bind (releasePage _ _) fun _ => fillOverflow buffer size fun page => ?_
      have written := OverflowPage.overflowPages_written page buffer some
      rw [same, Nat.succ_inj] at written
      rw [← written]
      exact ih _ _ _ _
    · exact .pure _

theorem growRoot (report : SplitReport) : Spends 2 1 (BTree.growRoot report) :=
  .bind allocateNewPage fun _ => .bind .get fun _ => .bind writeInternal fun _ =>
    .bind (setNewRoot _) fun _ => .bind .get fun _ => releasePage _ _

theorem store (leaf : LeafPage) (toWritePage : Nat) (buffer : List Byte) (key : Nat) :
    let status := (leaf.writeChunkLeaf (.ofBuffer buffer) buffer.length key none).2
    Spends (overflowPages (buffer.length - status.written))
      (overflowPages (buffer.length - status.written)) (do
      BTree.writePage toWritePage (.leaf (leaf.writeChunkLeaf (.ofBuffer buffer) buffer.length key none).1)
      let last ← BTree.writeOverflowPages buffer.length toWritePage status
        ((Pointer.ofBuffer buffer).advance status.written)
        (buffer.length - status.written)
      BTree.releasePage last true
      Pure.pure true) := by
  intro status
  exact .bind writeLeaf fun _ =>
    .le (.bind (writeOverflowPages _ _ _ _ _) fun _ => .bind (releasePage _ _) fun _ => .pure _)
    (Nat.le_of_eq (Nat.zero_add _)) (Nat.le_of_eq (Nat.zero_add _))

/-! ### Deletion -/

section Repairs
variable {childPid leftPid rightPid stale : Nat} {success : Bool} {report : DeleteStatus}
    {siblingPidCheck : Except ErrType Nat}
  {otherwise : TreeM DeleteStatus}

theorem fallThrough (pid : Nat) : Spends requested allocated (BTree.fallThrough pid) :=
  .le (.bind (releasePage _ _) fun _ => .pure _) (Nat.zero_le _) (Nat.zero_le _)

theorem borrowLeaf (rest : Spends (requested + 1) 0 otherwise) {canLend : LeafPage → Nat → BorrowQuery}
    {handleBorrow : LeafPage → LeafPage → BorrowQuery → LeafPage × LeafPage × Nat} :
    Spends (requested + 2) 0
      (BTree.borrowLeaf canLend handleBorrow pid childPid leftPid rightPid report siblingPidCheck
      otherwise) := by
  cases siblingPidCheck with
  | error _ => exact rest.le (Nat.le_succ _) (Nat.le_refl _)
  | ok siblingPid =>
    refine .bind (requestPage _) fun _ => .bind (readLeaf _) fun lender => ?_
    simp only
    split
    · exact .bind (requestPage _) fun _ => .bind (readLeaf _) fun _ => .bind writeLeaf fun _ =>
        .bind writeLeaf fun _ =>
        .bind (readInternal _) fun _ => .bind writeInternal fun _ => .bind (releasePage _ _) fun _ =>
          .bind (releasePage _ _) fun _ =>
        .bind (releasePage _ _) fun _ => .pure _
    · exact .bind (releasePage _ _) fun _ => rest

theorem borrowInternal (rest : Spends (requested + 1) 0 otherwise)
    {handleBorrow : InternalPage → InternalPage → InternalPage → BorrowQuery →
      InternalPage × InternalPage × InternalPage} :
    Spends (requested + 2) 0
      (BTree.borrowInternal handleBorrow pid childPid report siblingPidCheck otherwise) := by
  cases siblingPidCheck with
  | error _ => exact rest.le (Nat.le_succ _) (Nat.le_refl _)
  | ok siblingPid =>
    refine .bind (requestPage _) fun _ => .bind (readInternal _) fun lender => ?_
    simp only
    split
    · exact .bind (requestPage _) fun _ => .bind (readInternal _) fun _ =>
        .bind (readInternal _) fun _ => .bind writeInternal fun _ =>
        .bind writeInternal fun _ => .bind writeInternal fun _ => .bind (releasePage _ _) fun _ =>
          .bind (releasePage _ _) fun _ =>
        .bind (releasePage _ _) fun _ => .pure _
    · exact .bind (releasePage _ _) fun _ => rest

theorem mergeLeaves (toPid fromPid : Nat) : Spends 2 0 (BTree.mergeLeaves toPid fromPid) := by
  refine .bind (requestPage _) fun _ => .bind (requestPage _) fun _ => .bind (readLeaf _) fun _ =>
    .bind (readLeaf _) fun _ => ?_
  split
  · exact .throw _
  · exact writeLeaf

theorem repairNeighbour (toPid : Nat) : Spends 1 0 (BTree.repairNeighbour toPid) := by
  refine .bind (readLeaf _) fun _ => ?_
  split
  · exact .bind (requestPage _) fun _ => .bind (readLeaf _) fun _ => .bind writeLeaf fun _ => releasePage _ _
  · exact .pure _

theorem deleteKeyAndChildPtr (pid absorbingPage mergedPage : Nat) :
    Spends 0 0 (BTree.deleteKeyAndChildPtr pid absorbingPage mergedPage) :=
  .bind (readInternal _) fun _ => writeInternal

theorem releaseAll (releases : List (Nat × Bool)) : Spends 0 0 (BTree.releaseAll releases) := by
  induction releases with
  | nil => exact .pure _
  | cons release releases ih => exact .bind (releasePage _ _) fun _ => ih

theorem finishLeafMerge {collapsed kept : List (Nat × Bool)} :
    Spends 1 0 (BTree.finishLeafMerge stale pid collapsed kept success) := by
  refine .bind (readInternal _) fun _ => .bind .get fun _ => ?_
  split
  · exact .bind (setNewRoot _) fun _ => .bind (releaseAll _) fun _ => .pure _
  · exact .bind (releaseAll _) fun _ => .pure _

theorem mergeLeafLeft : Spends 4 0 (BTree.mergeLeafLeft stale pid leftPid childPid success) :=
  .bind (mergeLeaves _ _) fun _ => .bind (repairNeighbour _) fun _ =>
    .bind (deleteKeyAndChildPtr _ _ _) fun _ => finishLeafMerge

theorem mergeLeafRight : Spends 4 0 (BTree.mergeLeafRight stale pid childPid rightPid success) :=
  .bind (mergeLeaves _ _) fun _ => .bind (deleteKeyAndChildPtr _ _ _) fun _ =>
    .bind (repairNeighbour _) fun _ => finishLeafMerge

theorem repairLeaf : Spends 6 0 (BTree.repairLeaf stale pid childPid report) := by
  refine .bind (readInternal _) fun page => borrowLeaf (borrowLeaf ?_)
  split
  · exact mergeLeafLeft
  · exact mergeLeafRight
  · exact fallThrough _

theorem mergeInternal {toPid fromPid : Nat} :
    Spends 2 0 (BTree.mergeInternal stale pid toPid fromPid success) :=
  .bind (requestPage _) fun _ => .bind (readInternal _) fun _ => .bind (requestPage _) fun _ =>
    .bind (readInternal _) fun _ =>
    .bind (readInternal _) fun _ => .bind writeInternal fun _ => .bind writeInternal fun _ =>
      .bind (releasePage _ _) fun _ =>
    .bind (releasePage _ _) fun _ => .bind (releasePage _ _) fun _ => .pure _

theorem repairInternal : Spends 6 0 (BTree.repairInternal stale pid childPid report) := by
  suffices four : Spends 4 0 (BTree.repairInternal stale pid childPid report) from
    four.le (by omega) (Nat.le_refl _)
  refine .bind (readInternal _) fun page =>
    borrowInternal (.le (borrowInternal ?_) (Nat.le_refl 3) (Nat.le_refl _))
  split
  · exact mergeInternal
  · exact mergeInternal
  · exact fallThrough _

end Repairs

/-- On each level, a deletion requests the page on the way, and what it spends below and on a repair. -/
private theorem deleteFrom_level {stale : Nat → Nat} {fuel key : Nat} (pid : Nat)
    (below : ∀ child (repair : DeleteStatus → TreeM DeleteStatus), (∀ report, Spends 6 0 (repair report)) →
      Spends requested 0 (BTree.deleteFrom stale fuel child key >>= repair)) :
    Spends (requested + 1) 0 (BTree.deleteFrom stale (fuel + 1) pid key) := by
  refine .bind (requestPage _) fun _ => .bind (readPage _) fun page => ?_
  split
  · refine below _ _ fun report => ?_
    have released : ∀ status : DeleteStatus,
        Spends 6 0 (BTree.releasePage pid true >>= fun _ => Pure.pure status) :=
      fun _ =>
      .bind (releasePage _ _) fun _ => .pure _
    split
    · exact .pure _
    · split
      · exact repairLeaf
      · exact released _
    · split
      · exact repairInternal
      · exact released _
  · have rest : ∀ dirty (status : DeleteStatus), Spends requested 0 (do
        BTree.releasePage pid dirty
        return status) := fun _ _ => .bind (releasePage _ _) fun _ => .pure _
    simp only
    split
    · exact .bind writeLeaf fun _ => rest _ _
    · exact rest _ _
  · exact .throw _

theorem deleteFrom (stale : Nat → Nat) (levels pid key : Nat) :
    Spends (7 * levels + 1) 0 (BTree.deleteFrom stale (levels + 1) pid key) := by
  induction levels generalizing pid with
  | zero => exact deleteFrom_level pid fun _ _ _ _ => whenever_bind.mpr whenever_throw
  | succ levels ih =>
    refine deleteFrom_level pid fun child repair repaired => ?_
    exact .le (.bind (ih child) repaired) (show 6 + (7 * levels + 1) ≤ 7 * (levels + 1) by omega)
      (Nat.le_refl _)

/-! ### Reading -/

/-- A search requests one page on each level. -/
theorem searchFrom (fuel pid key : Nat) : Spends fuel 0 (BTree.searchFrom fuel pid key) := by
  induction fuel generalizing pid with
  | zero => exact .throw _
  | succ fuel ih =>
    refine .bind (requestPage _) fun _ => .bind (readPage _) fun page => ?_
    split
    · exact .bind (releasePage _ _) fun _ => ih _
    · simp only
      split
      · exact .bind (releasePage _ _) fun _ => .pure _
      · exact .bind (releasePage _ _) fun _ => .pure _
    · exact .pure _

theorem nextBytesLoop (fuel : Nat) (stream : PayloadStream) (count : Nat) (buffer : List Byte) :
    Spends fuel 0 (PayloadStream.nextBytesLoop fuel stream count buffer) := by
  induction fuel generalizing stream count buffer with
  | zero => exact .pure _
  | succ fuel ih =>
    rw [PayloadStream.nextBytesLoop]
    split
    · exact .pure _
    · refine .bind (readBytes _) fun block => ?_
      simp only
      split
      · split
        · exact .bind (releasePage _ _) fun _ => .bind (requestPage _) fun _ =>
            .bind (readOverflow _) fun _ => ih _ _ _
        · exact .pure _
      · exact .pure _

/-- A read requests a page for every byte at most. -/
theorem nextBytes (stream : PayloadStream) (n : Nat) : Spends (n + 2) 0 (stream.nextBytes n) := by
  rw [PayloadStream.nextBytes]
  simp only
  split
  · exact .pure _
  · have read := nextBytesLoop (min n (stream.totalBytes - stream.bytesRead) + 1) stream
      (min n (stream.totalBytes - stream.bytesRead)) []
    exact .bind (requestPage _) fun _ => .le (.bind read fun _ => .bind (releasePage _ _) fun _ => .pure _)
      (show 0 + 0 + _ ≤ n + 1 by omega) (Nat.le_refl _)

end Spends

/-! ### All uses -/

/-- A program that leads to a store with some effects, if it returns. -/
def Moves (program : TreeM α) : Prop :=
  ∀ st, Whenever program st fun _ st' => ∃ requested allocated, Effects requested allocated st st'

namespace Moves

theorem bind {first : TreeM α} {next : α → TreeM β} (moves : Moves first)
    (later : ∀ result, Moves (next result)) : Moves (first >>= next) := by
  refine fun st => whenever_bind.mpr ((moves st).imp fun result middle reached =>
    (later result middle).imp fun _ st' reached' => ?_)
  obtain ⟨_, _, effects⟩ := reached
  obtain ⟨_, _, effects'⟩ := reached'
  exact ⟨_, _, effects.trans effects'⟩

theorem pure (result : α) : Moves (Pure.pure result : TreeM α) :=
  fun st => whenever_pure.mpr ⟨0, 0, .refl _ _ st⟩

end Moves

theorem Spends.moves {program : TreeM α} (spends : Spends requested allocated program) : Moves program :=
  fun st => (spends st).imp fun _ _ effects => ⟨_, _, effects⟩

namespace Moves

theorem insert (buffer : List Byte) (key : Nat) : Moves (BTree.insert buffer key) := by
  refine .bind Spends.get.moves fun tree => .bind (Spends.findPageToWrite _ _ _ _).moves fun result => ?_
  obtain ⟨report, toWritePage⟩ := result
  have rest : Moves _ := .bind (Spends.readLeaf toWritePage).moves fun leaf =>
    (Spends.store leaf toWritePage buffer key).moves
  simp only
  split
  · exact .bind (Spends.growRoot _).moves fun _ => rest
  · exact rest

theorem delete (stale : Nat → Nat) (key : Nat) : Moves (BTree.delete stale key) := by
  refine .bind Spends.get.moves fun tree => .bind ?_ fun _ => .pure _
  cases tree.newPageOffsetIndex with
  | zero =>
    have nothing : Spends 0 0 (MonadExcept.throw Failure.depth : TreeM DeleteStatus) := .throw _
    exact nothing.moves
  | succ levels => exact (Spends.deleteFrom _ levels _ _).moves

theorem search (key : Nat) : Moves (BTree.search key) :=
  .bind Spends.get.moves fun _ => (Spends.searchFrom _ _ _).moves

theorem nextAll (sizes : List Nat) (stream : PayloadStream) : Moves (stream.nextAll sizes) := by
  induction sizes generalizing stream with
  | nil => exact .pure _
  | cons n sizes ih => exact .bind (Spends.nextBytes _ _).moves fun _ => .bind (ih _) fun _ => .pure _

theorem use (usage : Usage) : Moves (BTree.use usage) := by
  cases usage with
  | insert buffer key => exact .bind (insert _ _) fun _ => .pure _
  | delete key => exact .bind (delete _ _) fun _ => .pure _
  | read key sizes => exact .bind (search _) fun _ => .bind (nextAll _ _) fun _ => .pure _

theorem useAll (usages : List Usage) : Moves (BTree.useAll usages) := by
  induction usages with
  | nil => exact .pure _
  | cons usage usages ih => exact .bind (use usage) fun _ => .bind ih fun _ => .pure _

end Moves

/-- The flags of overflow pages are single bytes, whatever is done to the tree. -/
theorem Moves.flagged {program : TreeM α} (moves : Moves program) {result : α}
    (returned : program st = .ok result st') (flagged : st.Flagged) :
    st'.Flagged := by
  obtain ⟨_, _, effects⟩ := moves st result st' returned
  exact effects.flagged flagged

end Datashil
