import Datashil.Proofs.InsertAccounts

/-! The accesses of a deletion: whichever way it ends, the pages it has pinned are let go,
and all changed ones as dirty, unless a page is given up as the root. -/

namespace Datashil
open Library LeafPage BTree Datashil.Tree

namespace LeafPage

theorem rightPid_writeChunkLeaf (page : LeafPage) (buffer : Pointer) (bufferSize key : Nat)
    (defaultTuple : Option Pointer) :
    (page.writeChunkLeaf buffer bufferSize key defaultTuple).1.rightPid = page.rightPid := by
  simp only [writeChunkLeaf]
  split <;> split <;> rfl

theorem rightPid_mergeLoop (fromPage : LeafPage) (slots : List SlotArrayElement) (toPage merged : LeafPage)
    (merges : mergeLoop fromPage slots toPage = .ok merged) : merged.rightPid = toPage.rightPid := by
  induction slots generalizing toPage with
  | nil =>
    cases merges
    rfl
  | cons element slots ih =>
    simp only [mergeLoop] at merges
    split at merges
    · exact ih toPage merges
    · split at merges
      · cases merges
      · exact (ih _ merges).trans (rightPid_writeChunkLeaf ..)

/-- A merged page is followed by what followed the page merged into it. -/
theorem rightPid_mergePages {toPage fromPage merged : LeafPage}
    (merges : toPage.mergePages fromPage = .ok merged) :
    merged.rightPid = fromPage.rightPid :=
  rightPid_mergeLoop fromPage fromPage.slotArray { toPage with rightPid := fromPage.rightPid } merged merges

end LeafPage

/-- How a step of a deletion ends: a page is let go; it stays unmarked only where the report says
that it is not to be used any more. -/
def Concluded (limit : Nat) (st : BTree) (held : Multiset Nat) (pid : Nat) (result : DeleteStatus)
    (st' : BTree) : Prop :=
  Accounted limit st held {other | result.pageType = .invalidPage ∧ other = pid} st'

def Followed (st : BTree) (pages : Nat → Page) (pid : Nat) : Prop :=
  ∀ leaf, pages pid = .leaf leaf → leaf.rightPid ≠ 0 → st.Live leaf.rightPid

theorem Followed.of_internal {st : BTree} {pages : Nat → Page} {pid : Nat} {page : InternalPage}
    (stored : pages pid = .internal page) :
    Followed st pages pid := by
  intro leaf found
  rw [stored] at found
  cases found

/-- The pages around an underflown one may be requested, and the leaves that follow them. -/
structure Surrounded (st : BTree) (pages : Nat → Page) (pid childPid : Nat) : Prop where
  child : st.Live childPid ∧ Followed st pages childPid
  siblings : ∀ page, pages pid = .internal page → ∀ missing sibling,
    page.leftSibling childPid missing = .ok sibling ∨ page.rightSibling childPid missing = .ok sibling →
      st.Live sibling ∧ Followed st pages sibling
  metaPage : st.Live DATABASE_META_PAGE_ID

namespace Accounted
variable {limit : Nat} {st st₁ : BTree} {held : Multiset Nat} {touched : Set Nat}
    {pid childPid siblingPid toPid fromPid : Nat}

/-- Releasing all of the pages that were pinned last marks the dirty ones. -/
theorem releaseAll (releases : List (Nat × Bool))
    (accounted : Accounted limit st ((releases.map Prod.fst : Multiset Nat) + held) touched st₁) :
    Whenever (BTree.releaseAll releases) st₁ fun _ st' =>
      Accounted limit st held (touched \ {pid | (pid, true) ∈ releases}) st' := by
  induction releases generalizing st₁ touched with
  | nil => exact whenever_pure.mpr (by simpa using accounted)
  | cons entry releases ih =>
    obtain ⟨pid, isDirty⟩ := entry
    simp only [BTree.releaseAll, whenever_bind, whenever_releasePage]
    simp only [List.map_cons, ← Multiset.cons_coe, Multiset.cons_add] at accounted
    cases isDirty with
    | false =>
      have released := accounted.release pid (by simp)
      rw [Multiset.erase_cons_head] at released
      refine (ih released).imp fun _ _ rest => rest.weaken ?_
      rintro other ⟨inside, away⟩
      exact ⟨inside, by simpa using away⟩
    | true =>
      have released := accounted.mark pid (by simp)
      rw [Multiset.erase_cons_head] at released
      refine (ih released).imp fun _ _ rest => rest.weaken ?_
      rintro other ⟨⟨inside, apart⟩, away⟩
      exact ⟨inside, by simpa using ⟨apart, away⟩⟩

theorem markThree {first second third : Nat}
    (accounted : Accounted limit st (first ::ₘ second ::ₘ third ::ₘ held) touched st₁) :
    Accounted limit st held (touched \ {first, second, third})
      (((st₁.record (.release first true)).record (.release second true)).record (.release third true)) := by
  have released := accounted.mark first (by simp)
  rw [Multiset.erase_cons_head] at released
  have released := released.mark second (by simp)
  rw [Multiset.erase_cons_head] at released
  have released := released.mark third (by simp)
  rw [Multiset.erase_cons_head] at released
  refine released.weaken ?_
  rintro other ⟨⟨⟨inside, awayFirst⟩, awaySecond⟩, awayThird⟩
  exact ⟨inside, by simpa using ⟨awayFirst, awaySecond, awayThird⟩⟩

/-- A borrow ends by itself where the sibling agrees, and goes on with nothing new pinned otherwise. -/
theorem borrowLeaf {canLend : LeafPage → Nat → BorrowQuery}
    {handleBorrow : LeafPage → LeafPage → BorrowQuery → LeafPage × LeafPage × Nat}
    {leftPid rightPid : Nat} {report : DeleteStatus} {siblingPidCheck : Except ErrType Nat}
    {otherwise : TreeM DeleteStatus}
    (accounted : Accounted limit st (pid ::ₘ held) ∅ st₁) (room : held.card + 3 ≤ limit)
    (child : st.Live childPid)
    (sibling : ∀ siblingPid, siblingPidCheck = .ok siblingPid → st.Live siblingPid)
    (continues : ∀ st₂, st₂.pages = st₁.pages → Accounted limit st (pid ::ₘ held) ∅ st₂ →
      Whenever otherwise st₂ (Concluded limit st held pid)) :
    Whenever (BTree.borrowLeaf canLend handleBorrow pid childPid leftPid rightPid report siblingPidCheck
      otherwise) st₁
      (Concluded limit st held pid) := by
  cases siblingPidCheck with
  | error => exact continues st₁ rfl accounted
  | ok siblingPid =>
    have asked := (accounted.request siblingPid (by simp; omega) (sibling siblingPid rfl)
      (by simp)).read siblingPid (by simp)
    simp only [BTree.borrowLeaf, whenever_bind, whenever_requestPage, whenever_readLeaf]
    intro lender lenderStored
    split
    · have pinned := (asked.request childPid (by simp; omega) child (by simp)).read childPid (by simp)
      simp only [whenever_bind, whenever_requestPage, whenever_readLeaf, whenever_writePage,
        whenever_readInternal, whenever_releasePage, whenever_pure]
      intro childPage childStored page stored
      exact ((((pinned.write childPid _ (by simp)).write siblingPid _ (by simp)).read pid
        (by simp)).write pid _ (by simp)).markThree.weaken
        (by simp)
    · have released := asked.release siblingPid (by simp)
      rw [Multiset.erase_cons_head] at released
      simp only [whenever_bind, whenever_releasePage]
      exact continues _ rfl released

/-- Merging leaves both pages pinned, and the links behind them in place. -/
theorem mergeLeaves (accounted : Accounted limit st held ∅ st₁) (room : held.card + 2 ≤ limit)
    (toLive : st.Live toPid) (fromLive : st.Live fromPid) :
    Whenever (BTree.mergeLeaves toPid fromPid) st₁ fun _ st₂ =>
      Accounted limit st (fromPid ::ₘ toPid ::ₘ held) {toPid} st₂ ∧
      ∃ fromPage merged, st₁.pages fromPid = .leaf fromPage ∧ merged.rightPid = fromPage.rightPid ∧
        st₂.pages toPid = .leaf merged := by
  have pinned := (((accounted.request toPid (by omega) toLive (by simp)).request fromPid
    (by simp; omega) fromLive (by simp)).read toPid
    (by simp)).read fromPid (by simp)
  simp only [BTree.mergeLeaves, whenever_bind, whenever_requestPage, whenever_readLeaf]
  intro toPage toStored fromPage fromStored
  split
  · exact whenever_throw
  · rename_i merged merges
    exact whenever_writePage.mpr ⟨(pinned.write toPid _ (by simp)).weaken (by simp), fromPage, merged,
      fromStored, rightPid_mergePages merges,
      by simp⟩

theorem repairNeighbour (accounted : Accounted limit st held touched st₁) (room : held.card < limit)
    (pinned : toPid ∈ held)
    (kept : ∀ pid ∈ touched, pid ∈ held) (neighbour : Followed st st₁.pages toPid) :
    Whenever (BTree.repairNeighbour toPid) st₁ fun _ st₂ => Accounted limit st held touched st₂ := by
  have read := accounted.read toPid pinned
  simp only [BTree.repairNeighbour, whenever_bind, whenever_readLeaf]
  intro toPage stored
  split
  · rename_i some
    have asked := (read.request toPage.rightPid room (neighbour toPage stored some) (kept _)).read
      toPage.rightPid (by simp)
    simp only [whenever_bind, whenever_requestPage, whenever_readLeaf, whenever_writePage,
      whenever_releasePage]
    intro leaf _
    have marked := (asked.write toPage.rightPid (.leaf { leaf with leftPid := toPage.pageId })
      (by simp)).mark toPage.rightPid (by simp)
    rw [Multiset.erase_cons_head] at marked
    refine marked.weaken ?_
    rintro other ⟨rfl | inside, away⟩
    · exact absurd rfl away
    · exact inside
  · exact whenever_pure.mpr read

theorem deleteKeyAndChildPtr (pid : Nat) (accounted : Accounted limit st held touched st₁)
    (pinned : pid ∈ held) (absorbingPage mergedPage : Nat) :
    Whenever (BTree.deleteKeyAndChildPtr pid absorbingPage mergedPage) st₁ fun _ st₂ =>
      Accounted limit st held (insert pid touched) st₂ ∧
      ∀ other leaf, st₂.pages other = .leaf leaf → st₁.pages other = .leaf leaf := by
  have read := accounted.read pid pinned
  simp only [BTree.deleteKeyAndChildPtr, whenever_bind, whenever_readInternal, whenever_writePage]
  intro page _
  refine ⟨read.write pid _ pinned, fun other leaf stored => ?_⟩
  simp only [pages_record, pages_setPage] at stored
  split at stored
  · cases stored
  · exact stored

/-- Both ends of a merge let go of the same pages; only a collapsed root may stay unmarked. -/
theorem finishLeafMerge {collapsed kept : List (Nat × Bool)} {pinned : Multiset Nat}
    (accounted : Accounted limit st pinned touched st₁)
    (room : pinned.card < limit) (inside : pid ∈ pinned) (live : st.Live DATABASE_META_PAGE_ID)
    (heldTouched : ∀ other ∈ touched, other ∈ pinned)
    (collapsedPins : (collapsed.map Prod.fst : Multiset Nat) + held = pinned)
    (keptPins : (kept.map Prod.fst : Multiset Nat) + held = pinned)
    (collapsedMarks : ∀ other ∈ touched, (other, true) ∈ collapsed ∨ other = pid)
    (keptMarks : ∀ other ∈ touched, (other, true) ∈ kept)
    (stale : Nat) (success : Bool) :
    Whenever (BTree.finishLeafMerge stale pid collapsed kept success) st₁ (Concluded limit st held pid) := by
  have read := accounted.read pid inside
  simp only [BTree.finishLeafMerge, whenever_bind, whenever_readInternal, whenever_get]
  intro page _
  split
  · simp only [whenever_bind]
    refine (read.setNewRoot room live (heldTouched _) (page.getValueAtIndex 0)).imp ?_
    rintro _ st₂ ⟨changed, -⟩
    rw [← collapsedPins] at changed
    refine (changed.releaseAll collapsed).imp fun _ _ released => whenever_pure.mpr (released.weaken ?_)
    rintro other ⟨among, away⟩
    exact ⟨rfl, (collapsedMarks other among).resolve_left away⟩
  · rw [← keptPins] at read
    simp only [whenever_bind]
    refine (read.releaseAll kept).imp fun _ _ released => whenever_pure.mpr (released.weaken ?_)
    rintro other ⟨among, away⟩
    exact absurd (keptMarks other among) away

theorem mergeLeafLeft {leftPid : Nat} (accounted : Accounted limit st (pid ::ₘ held) ∅ st₁)
    (room : held.card + 4 ≤ limit)
    (left : st.Live leftPid) (child : st.Live childPid) (live : st.Live DATABASE_META_PAGE_ID)
    (neighbour : Followed st st₁.pages childPid) (stale : Nat) (success : Bool) :
    Whenever (BTree.mergeLeafLeft stale pid leftPid childPid success) st₁ (Concluded limit st held pid) := by
  simp only [BTree.mergeLeafLeft, whenever_bind]
  refine (accounted.mergeLeaves (by simp; omega) left child).imp ?_
  rintro _ st₂ ⟨merging, fromPage, merged, fromStored, follows, toStored⟩
  refine (merging.repairNeighbour (by simp; omega) (by simp) (by simp) ?_).imp ?_
  · intro leaf stored
    obtain rfl : merged = leaf := by simpa [toStored] using stored
    rw [follows]
    exact neighbour fromPage fromStored
  intro _ st₃ repaired
  refine (repaired.deleteKeyAndChildPtr pid (by simp) leftPid childPid).imp ?_
  rintro _ st₄ ⟨rewritten, -⟩
  refine rewritten.finishLeafMerge (by simp; omega) (by simp) live (by simp) ?_ ?_ (by simp)
    (by simp) stale success
  · simp only [List.map_cons, List.map_nil, ← Multiset.cons_coe, Multiset.coe_nil, Multiset.cons_add,
      Multiset.zero_add]
    rw [Multiset.cons_swap pid, Multiset.cons_swap pid]
  · simp only [List.map_cons, List.map_nil, ← Multiset.cons_coe, Multiset.coe_nil, Multiset.cons_add,
      Multiset.zero_add]
    rw [Multiset.cons_swap leftPid]

theorem mergeLeafRight {rightPid : Nat} (accounted : Accounted limit st (pid ::ₘ held) ∅ st₁)
    (room : held.card + 4 ≤ limit)
    (child : st.Live childPid) (right : st.Live rightPid) (live : st.Live DATABASE_META_PAGE_ID)
    (neighbour : Followed st st₁.pages rightPid) (stale : Nat) (success : Bool) :
    Whenever (BTree.mergeLeafRight stale pid childPid rightPid success) st₁
      (Concluded limit st held pid) := by
  simp only [BTree.mergeLeafRight, whenever_bind]
  refine (accounted.mergeLeaves (by simp; omega) child right).imp ?_
  rintro _ st₂ ⟨merging, fromPage, merged, fromStored, follows, toStored⟩
  refine (merging.deleteKeyAndChildPtr pid (by simp) childPid rightPid).imp ?_
  rintro _ st₃ ⟨rewritten, same⟩
  refine (rewritten.repairNeighbour (by simp; omega) (by simp) (by simp) ?_).imp ?_
  · intro leaf stored
    obtain rfl : merged = leaf := by simpa [toStored] using same childPid leaf stored
    rw [follows]
    exact neighbour fromPage fromStored
  intro _ st₄ repaired
  refine repaired.finishLeafMerge (by simp; omega) (by simp) live (by simp) ?_ ?_ (by simp)
    (by simp) stale success
  · simp only [List.map_cons, List.map_nil, ← Multiset.cons_coe, Multiset.coe_nil, Multiset.cons_add,
      Multiset.zero_add]
    rw [Multiset.cons_swap pid, Multiset.cons_swap pid, Multiset.cons_swap childPid]
  · simp only [List.map_cons, List.map_nil, ← Multiset.cons_coe, Multiset.coe_nil, Multiset.cons_add,
      Multiset.zero_add]
    rw [Multiset.cons_swap childPid]

theorem fallThrough (accounted : Accounted limit st (pid ::ₘ held) ∅ st₁) :
    Whenever (BTree.fallThrough pid) st₁ (Concluded limit st held pid) := by
  have released := accounted.release pid (by simp)
  rw [Multiset.erase_cons_head] at released
  simp only [BTree.fallThrough, whenever_bind, whenever_releasePage, whenever_pure]
  exact released.weaken (by simp)

/-- Whatever becomes of an underflown leaf, the page above it is let go. -/
theorem repairLeaf (accounted : Accounted limit st (pid ::ₘ held) ∅ st₁) (room : held.card + 4 ≤ limit)
    (surrounded : Surrounded st st₁.pages pid childPid) (stale : Nat) (report : DeleteStatus) :
    Whenever (BTree.repairLeaf stale pid childPid report) st₁ (Concluded limit st held pid) := by
  have read := accounted.read pid (by simp)
  simp only [BTree.repairLeaf, whenever_bind, whenever_readInternal]
  intro page stored
  have leftLive : ∀ leftPid, page.getLeafLeftSibling childPid = .ok leftPid → st.Live leftPid :=
    fun leftPid found => (surrounded.siblings page stored _ leftPid (.inl found)).1
  have rightLive : ∀ rightPid, page.getLeafRightSibling childPid = .ok rightPid → st.Live rightPid ∧
      Followed st st₁.pages rightPid :=
    fun rightPid found => surrounded.siblings page stored _ rightPid (.inr found)
  refine read.borrowLeaf (by omega) surrounded.child.1 leftLive fun st₂ same read => ?_
  refine read.borrowLeaf (by omega) surrounded.child.1
    (fun rightPid found => (rightLive rightPid found).1) fun st₃ same' read => ?_
  have pages : st₃.pages = st₁.pages := same'.trans same
  split
  · rename_i leftPid found
    exact read.mergeLeafLeft room (leftLive leftPid found) surrounded.child.1 surrounded.metaPage
      (pages ▸ surrounded.child.2) _ _
  · rename_i rightPid _ found
    exact read.mergeLeafRight room surrounded.child.1 (rightLive rightPid found).1 surrounded.metaPage
      (pages ▸ (rightLive rightPid found).2) _ _
  · exact read.fallThrough

theorem borrowInternal {handleBorrow : InternalPage → InternalPage → InternalPage → BorrowQuery →
    InternalPage × InternalPage × InternalPage}
    {report : DeleteStatus} {siblingPidCheck : Except ErrType Nat} {otherwise : TreeM DeleteStatus}
    (accounted : Accounted limit st (pid ::ₘ held) ∅ st₁) (room : held.card + 3 ≤ limit)
    (child : st.Live childPid)
    (sibling : ∀ siblingPid, siblingPidCheck = .ok siblingPid → st.Live siblingPid)
    (continues : ∀ st₂, st₂.pages = st₁.pages → Accounted limit st (pid ::ₘ held) ∅ st₂ →
      Whenever otherwise st₂ (Concluded limit st held pid)) :
    Whenever (BTree.borrowInternal handleBorrow pid childPid report siblingPidCheck otherwise) st₁
      (Concluded limit st held pid) := by
  cases siblingPidCheck with
  | error => exact continues st₁ rfl accounted
  | ok siblingPid =>
    have asked := (accounted.request siblingPid (by simp; omega) (sibling siblingPid rfl)
      (by simp)).read siblingPid (by simp)
    simp only [BTree.borrowInternal, whenever_bind, whenever_requestPage, whenever_readInternal]
    intro lender lenderStored
    split
    · have pinned := ((asked.request childPid (by simp; omega) child (by simp)).read childPid
        (by simp)).read pid (by simp)
      rw [Multiset.cons_swap] at pinned
      simp only [whenever_bind, whenever_requestPage, whenever_readInternal, whenever_writePage,
        whenever_releasePage, whenever_pure]
      intro childPage _ page _
      exact (((pinned.write pid _ (by simp)).write childPid _ (by simp)).write siblingPid _
        (by simp)).markThree.weaken
        (by simp [Set.insert_comm])
    · have released := asked.release siblingPid (by simp)
      rw [Multiset.erase_cons_head] at released
      simp only [whenever_bind, whenever_releasePage]
      exact continues _ rfl released

theorem mergeInternal (accounted : Accounted limit st (pid ::ₘ held) ∅ st₁)
    (room : held.card + 3 ≤ limit) (toLive : st.Live toPid)
    (fromLive : st.Live fromPid) (stale : Nat) (success : Bool) :
    Whenever (BTree.mergeInternal stale pid toPid fromPid success) st₁ (Concluded limit st held pid) := by
  have asked := (accounted.request toPid (by simp; omega) toLive (by simp)).read toPid (by simp)
  have pinned := ((asked.request fromPid (by simp; omega) fromLive (by simp)).read fromPid
    (by simp)).read pid (by simp)
  simp only [BTree.mergeInternal, whenever_bind, whenever_requestPage, whenever_readInternal,
    whenever_writePage, whenever_releasePage,
    whenever_pure]
  intro toPage _ fromPage _ page _
  rcases page.deletePartitionKeyAndChildPtr toPid fromPid with ⟨page, partitionKey⟩
  have written := (pinned.write pid (.internal page) (by simp)).write toPid
    (.internal (.mergePages partitionKey toPage fromPage)) (by simp)
  have released := written.mark toPid (by simp)
  rw [erase_second] at released
  have released := released.release fromPid (by simp)
  rw [Multiset.erase_cons_head] at released
  have released := released.mark pid (by simp)
  rw [Multiset.erase_cons_head] at released
  exact released.weaken (by simp)

theorem repairInternal (accounted : Accounted limit st (pid ::ₘ held) ∅ st₁) (room : held.card + 4 ≤ limit)
    (surrounded : Surrounded st st₁.pages pid childPid) (stale : Nat) (report : DeleteStatus) :
    Whenever (BTree.repairInternal stale pid childPid report) st₁ (Concluded limit st held pid) := by
  have read := accounted.read pid (by simp)
  simp only [BTree.repairInternal, whenever_bind, whenever_readInternal]
  intro page stored
  have leftLive : ∀ leftPid, page.getInternalLeftSibling childPid = .ok leftPid → st.Live leftPid :=
    fun leftPid found => (surrounded.siblings page stored _ leftPid (.inl found)).1
  have rightLive : ∀ rightPid, page.getInternalRightSibling childPid = .ok rightPid → st.Live rightPid :=
    fun rightPid found => (surrounded.siblings page stored _ rightPid (.inr found)).1
  refine read.borrowInternal (by omega) surrounded.child.1 leftLive fun st₂ same read => ?_
  refine read.borrowInternal (by omega) surrounded.child.1 rightLive fun st₃ same' read => ?_
  split
  · rename_i leftPid found
    exact read.mergeInternal (by omega) (leftLive leftPid found) surrounded.child.1 _ _
  · rename_i rightPid _ found
    exact read.mergeInternal (by omega) surrounded.child.1 (rightLive rightPid found) _ _
  · exact read.fallThrough

end Accounted

namespace Tree
variable {cut : Nat → Nat → Prop} {key limit : Nat} {h : Nat} {tree : Tree h} {st st₁ : BTree}

/-- What a deletion has to know of the ledger: the pages of the tree may be requested, and those its
leaves lead to. -/
structure Removable (limit : Nat) (st : BTree) {h : Nat} (tree : Tree h) : Prop where
  live : ∀ pid ∈ tree.pids, st.Live pid
  following : ∀ leaf ∈ tree.leaves, leaf.rightPid ≠ 0 → st.Live leaf.rightPid
  metaPage : st.Live DATABASE_META_PAGE_ID
  room : st.ledger.held.card + (h + 3) ≤ limit

section Node
variable {id : Nat} {left : List (Tree h × Nat)} {child child' : Tree h} {right : List (Nat × Tree h)}
    {below : Option (Nat × Nat)}

theorem Removable.surrounded (removable : Removable (h := h + 1) limit st ⟨id, Row.close left child right⟩)
    (before : Deletable (h := h + 1) cut key st ⟨id, Row.close left child right⟩)
    (deleted : Deleted cut key child child' below)
    (changed : Changed st st₁ child child' below) : Surrounded st st₁.pages id child.pid := by
  have apart := focused before.nodup
  have member : ∀ {other : Tree h}, other ∈ (Row.close left child right).children → ∀ pid ∈ other.pids,
      pid ∈ Tree.pids (h := h + 1) ⟨id, Row.close left child right⟩ :=
        fun inside pid found => mem_pids_child inside found
  have notMeta : ∀ pid ∈ Tree.pids (h := h + 1) ⟨id, Row.close left child right⟩,
      pid ≠ DATABASE_META_PAGE_ID := by
    intro pid inside same
    exact before.outside (same ▸ inside)
  obtain ⟨page, stored, siblings⟩ := Holds.siblings before.holds before.nodup
  -- A sibling is as before, except that the leaf next to a merged one may have been linked to it.
  have sibling : ∀ other : Tree h, other ∈ (Row.close left child right).children → other.pid ∉ child.pids →
      st.Live other.pid ∧ Followed st st₁.pages other.pid := by
    intro other inside away
    refine ⟨removable.live _ (member inside _ pid_mem_pids), ?_⟩
    have frame := changed.frame other.pid away (notMeta _ (member inside _ pid_mem_pids))
    have holds := (holds_node.mp before.holds).2 other inside
    cases h with
    | zero =>
      obtain ⟨-, rfl⟩ := deleted_leaf.mp deleted
      intro leaf found
      rw [frame, relinkedPages_none, pid_leaf, holds_leaf.mp holds] at found
      cases found
      exact removable.following _ (mem_leaves_node.mpr ⟨other, inside, by simp⟩)
    | succ h =>
      obtain ⟨_, row⟩ := other
      obtain ⟨⟨page, stored, -⟩, -⟩ := holds_node.mp holds
      exact .of_internal (frame.trans (relinkedPages_internal stored))
  refine ⟨⟨removable.live _ (member (by simp) _ pid_mem_pids), ?_⟩, ?_, removable.metaPage⟩
  · have samePid := deleted.pid fun leaf inside =>
      before.valid leaf (mem_leaves_node.mpr ⟨child, by simp, inside⟩)
    cases h with
    | zero =>
      obtain ⟨rfl, rfl⟩ := deleted_leaf.mp deleted
      have holds := holds_leaf.mp changed.holds
      have inside : child ∈ Tree.leaves (h := 1) ⟨id, Row.close left child right⟩ :=
        mem_leaves_node.mpr ⟨child, by simp, by simp⟩
      have after := tuples_deleteTuple (before.valid child inside) key
      intro leaf found
      rw [mapLeaves_leaf, relink_none, after.2.1] at holds
      rw [pid_leaf, holds] at found
      cases found
      rw [after.2.2.2.1]
      exact removable.following child inside
    | succ h =>
      obtain ⟨_, row⟩ := child'
      obtain ⟨⟨page, stored, -⟩, -⟩ := holds_node.mp changed.holds
      rw [← samePid]
      exact .of_internal stored
  · intro other found missing siblingPid check
    have frame := changed.frame id apart.node (notMeta id (by simp))
    rw [relinkedPages_internal stored, found] at frame
    cases frame
    obtain ⟨leftFound, rightFound⟩ := siblings missing
    rcases check with check | check
    · rw [check] at leftFound
      obtain ⟨entry, among, rfl⟩ := Option.map_eq_some_iff.mp leftFound.symm
      have among := List.mem_of_mem_head? among
      refine sibling entry.1 (Row.mem_children_close.mpr (.inl ⟨entry.2, among⟩)) fun inside => ?_
      exact ((apart.left entry.1 entry.2 among).2 _ pid_mem_pids).2 inside
    · rw [check] at rightFound
      obtain ⟨entry, among, rfl⟩ := Option.map_eq_some_iff.mp rightFound.symm
      have among := List.mem_of_mem_head? among
      refine sibling entry.2 (Row.mem_children_close.mpr (.inr (.inr ⟨entry.1, among⟩))) fun inside => ?_
      exact ((apart.right entry.1 entry.2 among).2 _ pid_mem_pids).2 inside

theorem Removable.descend (removable : Removable (h := h + 1) limit st ⟨id, Row.close left child right⟩) :
    Removable limit ((st.record (.request id)).record (.read id)) child := by
  refine ⟨fun pid inside => removable.live pid (mem_pids_child (by simp) inside),
    fun leaf inside => removable.following leaf (mem_leaves_node.mpr ⟨child, by simp, inside⟩),
      removable.metaPage, ?_⟩
  have room := removable.room
  simp only [ledger_record, Ledger.step, Multiset.card_cons]
  omega

end Node

private theorem deleteFrom_leaf_accounted {page : LeafPage} (stored : st.pages page.pageId = .leaf page)
    (live : st.Live page.pageId)
    (room : st.ledger.held.card < limit) (fuel : Nat) (stale : Nat → Nat) :
    Whenever (deleteFrom stale (fuel + 1) page.pageId key) st
      (Concluded limit st st.ledger.held page.pageId) := by
  have read := ((Accounted.refl limit st).request page.pageId room live (by simp)).read page.pageId (by simp)
  simp only [deleteFrom, whenever_bind, whenever_requestPage, whenever_readPage, pages_record, stored]
  rw [whenever_when]
  split
  · rename_i dirty
    have released := (read.write page.pageId (.leaf (page.deleteTuple key).1) (by simp)).mark
      page.pageId (by simp)
    rw [Multiset.erase_cons_head] at released
    simp only [whenever_writePage, whenever_bind, whenever_releasePage, whenever_pure, dirty]
    exact released.weaken (by simp)
  · rename_i clean
    have released := read.release page.pageId (by simp)
    rw [Multiset.erase_cons_head] at released
    simp only [whenever_bind, whenever_releasePage, whenever_pure, clean]
    exact released.weaken (by simp)

/-- Below a page, a deletion lets go of all pages it pins. -/
theorem deleteFrom_accounted (fuel : Nat) (enough : h < fuel) (before : Deletable cut key st tree)
    (removable : Removable limit st tree) :
    Whenever (deleteFrom (fun _ => 0) fuel tree.pid key) st (Concluded limit st st.ledger.held tree.pid) := by
  induction h generalizing fuel st with
  | zero =>
    obtain ⟨fuel, rfl⟩ := Nat.exists_eq_add_of_lt enough
    have room := removable.room
    exact deleteFrom_leaf_accounted before.holds (removable.live _ (by simp)) (by omega) _ _
  | succ h ih =>
    obtain ⟨fuel, rfl⟩ : ∃ rest, fuel = rest + 1 := ⟨fuel - 1, by omega⟩
    obtain ⟨id, row⟩ := tree
    obtain ⟨left, child, right, rfl, place⟩ := row.exists_found key
    obtain ⟨⟨page, stored, named, shown⟩, -⟩ := holds_focus.mp before.holds
    have agrees : st.Agrees ((st.record (.request id)).record (.read id)) := ⟨rfl, rfl, rfl⟩
    have room := removable.room
    have read := ((Accounted.refl limit st).request id (by omega) (removable.live id (by simp))
      (by simp)).read id (by simp)
    simp only [deleteFrom, pid_node, whenever_bind, whenever_requestPage, whenever_readPage,
      pages_record, stored,
      shown.getChildPageId (found_pids place)]
    have child₁ := (before.child place).agrees agrees
    refine (deleteFrom_spec fuel (by omega) child₁).whenever
      ((ih fuel (by omega) child₁ removable.descend).imp ?_)
    intro result st₁ concluded deletes
    obtain ⟨child', fix, deleted, changed, ending⟩ := deletes.of_agrees agrees
    rcases ending with ⟨root, metaPage, rfl, -⟩ | ⟨-, sameRoot, -⟩
    swap
    · -- The root is no page below another one.
      rw [deleted.pid fun leaf member =>
        before.valid leaf (mem_leaves_node.mpr ⟨child, by simp, member⟩)] at sameRoot
      refine absurd ?_ before.below
      rw [sameRoot, pids_focus, List.tail_cons]
      simp [pid_mem_pids]
    have kind : (report key child).pageType ≠ .invalidPage := by
      cases h with
      | zero => simp [report]
      | succ h => simp [report_internal child]
    have held : Accounted limit st (id ::ₘ st.ledger.held) ∅ st₁ :=
      (read.trans concluded).weaken (by simp [kind])
    have surrounded := removable.surrounded before deleted changed
    have calm : Accounted limit st st.ledger.held ∅ (st₁.record (.release id true)) := by
      have released := held.mark id (by simp)
      rw [Multiset.erase_cons_head] at released
      exact released.weaken (by simp)
    have closing : Concluded limit st st.ledger.held id (settled (report key child).success)
        (st₁.record (.release id true)) :=
      calm.weaken (by simp)
    cases h with
    | zero =>
      have kind : (report (h := 0) key child).pageType = .leafPage := rfl
      simp only [kind]
      split
      · exact held.repairLeaf (by omega) surrounded _ _
      · simp only [whenever_bind, whenever_releasePage, whenever_pure]
        exact closing
    | succ h =>
      simp only [report_internal child]
      split
      · exact held.repairInternal (by omega) surrounded _ _
      · simp only [whenever_bind, whenever_releasePage, whenever_pure]
        exact closing

end Tree
end Datashil
