import Datashil.Proofs.DeletePages

/-! `Delete` repairs a leaf that runs low: what it does is a repair of the tree. -/

namespace Datashil
open Library LeafPage BTree

namespace Tree

theorem ran_releaseAll (releases : List (Nat × Bool)) (st : BTree) :
    Ran (releaseAll releases) st fun _ st' => st.Agrees st' := by
  induction releases generalizing st with
  | nil =>
    rw [releaseAll, ran_pure]
    exact .refl st
  | cons entry releases ih =>
    obtain ⟨pid, isDirty⟩ := entry
    simp only [releaseAll, ran_bind, ran_releasePage]
    exact (ih _).imp fun _ _ agrees => ⟨agrees.pages, agrees.root, agrees.counter⟩

theorem finishLeafMerge_spec {st : BTree} {pid : Nat} {page : InternalPage} {row : Row Nat Nat}
    (stored : st.pages pid = .internal page) (named : page.pageId = pid) (shown : page.Shows row)
    (metaPage : st.pages DATABASE_META_PAGE_ID = .databaseMeta DATABASE_MAGIC_NUMBER st.rootPageId)
    (collapsed kept : List (Nat × Bool)) (success : Bool) :
    Ran (finishLeafMerge 0 pid collapsed kept success) st fun result st' =>
      st'.newPageOffsetIndex = st.newPageOffsetIndex ∧
        (∀ other, other ≠ DATABASE_META_PAGE_ID → st'.pages other = st.pages other) ∧
        ((st'.rootPageId = st.rootPageId ∧ st'.pages DATABASE_META_PAGE_ID = st.pages DATABASE_META_PAGE_ID ∧
            result = repairReport false (row.rest.length + 1) success ∧
              (st.rootPageId = pid → row.rest ≠ [])) ∨
          (st.rootPageId = pid ∧ row.rest = [] ∧ st'.rootPageId = row.head ∧
            st'.pages DATABASE_META_PAGE_ID = .databaseMeta DATABASE_MAGIC_NUMBER st'.rootPageId ∧
            result = ⟨false, .invalidPage, 0, success⟩)) := by
  have head : page.getValueAtIndex 0 = row.head := shown.getValueAtIndex _ (by simp [Row.children])
  simp only [finishLeafMerge, ran_bind, ran_readInternal _ stored, ran_get]
  by_cases root : page.pageId = (st.record (.read pid)).rootPageId ∧ page.numKeys = 0
  · rw [if_pos root]
    have alone : row.rest = [] := List.length_eq_zero_iff.mp (by rw [← shown.numKeys]; exact root.2)
    simp only [ran_bind]
    refine (ran_setNewRoot _ st.rootPageId (by simpa using metaPage)).imp ?_
    rintro - st₁ ⟨newRoot, counter, pages⟩
    refine (ran_releaseAll collapsed st₁).imp ?_
    intro _ st' agrees
    rw [ran_pure]
    refine ⟨agrees.counter.trans counter, ?_, .inr ⟨(named.symm.trans root.1).symm, alone, ?_, ?_, rfl⟩⟩
    · intro other away
      rw [agrees.pages, pages, if_neg away]
      rfl
    · rw [agrees.root, newRoot, head]
    · rw [agrees.pages, pages, if_pos rfl, agrees.root, newRoot]
  · rw [if_neg root, checkUnderflow_spec (by rw [shown.numKeys]; exact shown.fits)]
    simp only [ran_bind]
    refine (ran_releaseAll kept _).imp ?_
    intro _ st' agrees
    rw [ran_pure]
    refine ⟨agrees.counter, fun other _ => by rw [agrees.pages]; rfl,
      .inl ⟨agrees.root, by rw [agrees.pages]; rfl, ?_, ?_⟩⟩
    · simp only [repairReport, Bool.false_eq_true, ite_false, Nat.succ_ne_zero, Nat.add_sub_cancel,
        shown.numKeys]
    · intro isRoot alone
      exact root ⟨named.trans isRoot.symm, by rw [shown.numKeys, alone]; rfl⟩

/-! ### Borrowing -/

section Borrow
variable {canLend : LeafPage → Nat → BorrowQuery}
    {handleBorrow : LeafPage → LeafPage → BorrowQuery → LeafPage × LeafPage × Nat}
  {st : BTree} {pid childPid siblingPid leftPid rightPid : Nat} {below : DeleteStatus}
  {otherwise : TreeM DeleteStatus}
  {page : InternalPage} {child sibling : LeafPage}

private theorem borrowLeaf_refused (stored : st.pages siblingPid = .leaf sibling)
    {post : DeleteStatus → BTree → Prop}
    (refused : (canLend sibling (u16 ((LEAF_UNDERFLOW_THRESHOLD + 1) - below.currentSize))).canBorrow =
      false) :
    Ran (borrowLeaf canLend handleBorrow pid childPid leftPid rightPid below (.ok siblingPid) otherwise)
      st post ↔
      Ran otherwise (((st.record (.request siblingPid)).record (.read siblingPid)).record
        (.release siblingPid false)) post := by
  simp only [borrowLeaf, ran_bind, ran_requestPage,
    ran_readLeaf sibling (show (st.record (.request siblingPid)).pages siblingPid =
    _ by simpa using stored), refused,
    Bool.false_eq_true, ite_false, ran_releasePage]

private theorem borrowLeaf_agreed (stored : st.pages pid = .internal page)
    (siblingStored : st.pages siblingPid = .leaf sibling)
    (childStored : st.pages childPid = .leaf child)
    (apart : pid ≠ childPid ∧ pid ≠ siblingPid ∧ childPid ≠ siblingPid)
    (agreed : (canLend sibling (u16 ((LEAF_UNDERFLOW_THRESHOLD + 1) - below.currentSize))).canBorrow = true)
    {child' sibling' : LeafPage} {boundary : Nat}
    (borrowed : handleBorrow child sibling
      (canLend sibling (u16 ((LEAF_UNDERFLOW_THRESHOLD + 1) - below.currentSize))) =
      (child', sibling', boundary)) :
    Ran (borrowLeaf canLend handleBorrow pid childPid leftPid rightPid below (.ok siblingPid) otherwise)
      st fun result st' =>
      result = settled below.success ∧ st'.rootPageId = st.rootPageId ∧
        st'.newPageOffsetIndex = st.newPageOffsetIndex ∧
        ∀ other, st'.pages other = if other = pid then
          .internal (page.setNewBoundaryKey boundary leftPid rightPid)
          else if other = siblingPid then .leaf sibling' else if other = childPid then .leaf child'
            else st.pages other := by
  simp only [borrowLeaf, ran_bind, ran_requestPage,
    ran_readLeaf sibling (show (st.record (.request siblingPid)).pages siblingPid =
    _ by simpa using siblingStored),
    agreed, ite_true]
  rw [ran_readLeaf child (by simpa using childStored)]
  simp only [borrowed, ran_writePage]
  rw [ran_readInternal page (by simpa [apart] using stored), ran_releasePage, ran_releasePage,
    ran_releasePage, ran_pure]
  refine ⟨rfl, by simp, by simp, fun other => ?_⟩
  simp only [pages_record, pages_setPage]

end Borrow

/-! ### Merging -/

section Merge
variable {st : BTree} {toPid fromPid : Nat} {toPage fromPage merged : LeafPage}

private theorem ran_mergeLeaves (toStored : st.pages toPid = .leaf toPage)
    (fromStored : st.pages fromPid = .leaf fromPage)
    (merges : toPage.mergePages fromPage = .ok merged) {post : Unit → BTree → Prop} :
    Ran (mergeLeaves toPid fromPid) st post ↔
      post ()
        ((((((st.record (.request toPid)).record (.request fromPid)).record (.read toPid)).record
        (.read fromPid)).setPage toPid
        (.leaf merged)).record (.write toPid)) := by
  simp only [mergeLeaves, ran_bind, ran_requestPage]
  rw [ran_readLeaf toPage (by simpa using toStored), ran_readLeaf fromPage (by simpa using fromStored)]
  simp only [merges, ran_writePage]

private theorem repairNeighbour_spec (merged : LeafPage) (stored : st.pages toPid = .leaf merged)
    (known : merged.rightPid = 0 ∨ ∃ page, st.pages merged.rightPid = .leaf page) :
    Ran (repairNeighbour toPid) st fun _ st' => st'.rootPageId = st.rootPageId ∧
      st'.newPageOffsetIndex = st.newPageOffsetIndex ∧
      ∀ other, st'.pages other = relinkedPages (link (h := 0) merged) st.pages other := by
  simp only [repairNeighbour, ran_bind, ran_readLeaf _ stored, link]
  by_cases none : merged.rightPid = 0
  · simp only [none, ne_eq, not_true_eq_false, ite_false, ite_true, ran_pure, relinkedPages_none]
    exact ⟨rfl, rfl, fun _ => rfl⟩
  · obtain ⟨page, neighbour⟩ := known.resolve_left none
    simp only [ne_eq, none, not_false_eq_true, ite_true, ite_false, ran_bind, ran_requestPage]
    rw [ran_readLeaf page (by simpa using neighbour)]
    simp only [ran_writePage, ran_releasePage]
    refine ⟨rfl, rfl, fun other => ?_⟩
    simp only [relinkedPages, pages_record, pages_setPage]
    split
    next here =>
      subst here
      rw [neighbour]
      rfl
    next => rfl

private theorem ran_deleteKeyAndChildPtr {pid absorbing gone : Nat} (page : InternalPage)
    (stored : st.pages pid = .internal page)
    {post : Unit → BTree → Prop} : Ran (deleteKeyAndChildPtr pid absorbing gone) st post ↔
      post ()
        (((st.record (.read pid)).setPage pid
        (.internal (page.deleteKeyAndChildPtr absorbing gone))).record (.write pid)) := by
  simp only [deleteKeyAndChildPtr, ran_bind, ran_readInternal _ stored, ran_writePage]

private theorem exists_erased {page : InternalPage} {left : List (Tree 0 × Nat)} {key : Nat}
    {right : List (Nat × Tree 0)}
    (shown : page.Shows (Row.close (leftPids left) toPage.pageId ((key, fromPage.pageId) :: rightPids right)))
    (fresh : toPage.pageId ∉ InternalPage.leftChildren (leftPids left))
    (freshSecond : fromPage.pageId ∉ InternalPage.leftChildren (leftPids left))
    (different : toPage.pageId ≠ fromPage.pageId)
    (mergedPid : merged.pageId = toPage.pageId) :
    ∃ row : Row Nat (Tree 0), (page.deleteKeyAndChildPtr toPage.pageId fromPage.pageId).Shows
      (row.map Tree.pid) ∧
      Erased (h := 0) left key merged right row := by
  have merging : (Row.close left merged right).map (Tree.pid (h := 0)) =
      Row.close (leftPids left) toPage.pageId (rightPids right) := by
    rw [map_pid_close, pid_leaf, mergedPid]
  by_cases sorted : ((left.map Prod.snd).reverse ++ key :: right.map Prod.fst).Pairwise (· ≤ ·)
  · refine ⟨_, ?_, erased_close left key merged right⟩
    rw [merging]
    apply shown.deleteKeyAndChildPtr fresh freshSecond different
    simpa [InternalPage.leftKeys, InternalPage.rightKeys, leftPids, rightPids, Function.comp_def] using sorted
  · obtain ⟨row, shows_, children⟩ := shown.exists_erased fresh freshSecond different
    rw [← merging, Row.children_map] at children
    obtain ⟨row', rfl, same⟩ := Row.exists_map_children children
    exact ⟨row', shows_, same, fun reason => absurd reason (not_or.mpr ⟨Nat.lt_irrefl 0, sorted⟩)⟩

end Merge

/-! ### Repair -/

section Repair
variable {cut : Nat → Nat → Prop} {st st₁ : BTree} {id key : Nat} {left : List (Tree 0 × Nat)}
    {first second merged : LeafPage}
  {right : List (Nat × Tree 0)} {below : DeleteStatus}

theorem relinkedPages_internal {fix : Option (Nat × Nat)} {pages : Nat → Page} {pid : Nat}
    {page : InternalPage}
    (stored : pages pid = .internal page) : relinkedPages fix pages pid = .internal page := by
  cases fix with
  | none => exact stored
  | some entry => simp only [relinkedPages, stored, Page.mapLeaf, ite_self]

theorem relinkedPages_overflow {fix : Option (Nat × Nat)} {pages : Nat → Page} {pid : Nat}
    {page : OverflowPage}
    (stored : pages pid = .overflow page) : relinkedPages fix pages pid = .overflow page := by
  cases fix with
  | none => exact stored
  | some entry => simp only [relinkedPages, stored, Page.mapLeaf, ite_self]

theorem relinkedPages_meta {fix : Option (Nat × Nat)} {pages : Nat → Page} {pid magicNumber root : Nat}
    (stored : pages pid = .databaseMeta magicNumber root) :
    relinkedPages fix pages pid = .databaseMeta magicNumber root := by
  cases fix with
  | none => exact stored
  | some entry => simp only [relinkedPages, stored, Page.mapLeaf, ite_self]

theorem relinkedPages_congr {fix : Option (Nat × Nat)} {pages pages' : Nat → Page} {pid : Nat}
    (same : pages' pid = pages pid) :
    relinkedPages fix pages' pid = relinkedPages fix pages pid := by
  cases fix with
  | none => exact same
  | some entry => simp only [relinkedPages, same]

private theorem outside_pair {other : Nat}
    (outside : other ∉ pids (h := 1) ⟨id, Row.close left first ((key, second) :: right)⟩) :
    other ≠ id ∧ other ≠ first.pageId ∧ other ≠ second.pageId := by
  rw [pids_pair] at outside
  simp only [List.mem_cons, List.mem_append, pids_leaf, not_or] at outside
  exact ⟨outside.1, outside.2.2.1.1, outside.2.2.2.1.1⟩

/-- After the merge of two leaves: their page without the key between them, as it stands or
collapsed. -/
private theorem finishLeafMerge_merged
    (holds : Holds (h := 1) st.pages ⟨id, Row.close left first ((key, second) :: right)⟩)
    (nodup : (pids (h := 1) ⟨id, Row.close left first ((key, second) :: right)⟩).Nodup)
    (outside : DATABASE_META_PAGE_ID ∉ pids (h := 1) ⟨id, Row.close left first ((key, second) :: right)⟩)
    (metaPage : st.pages DATABASE_META_PAGE_ID = .databaseMeta DATABASE_MAGIC_NUMBER st.rootPageId)
    (joined : LeafMerged first second merged) (page' : InternalPage) (named : page'.pageId = id)
    {row : Row Nat (Tree 0)}
    (shown : page'.Shows (row.map Tree.pid)) (erased : Erased (h := 0) left key merged right row)
    (root : st₁.rootPageId = st.rootPageId) (counter : st₁.newPageOffsetIndex = st.newPageOffsetIndex)
    (pages : ∀ other, st₁.pages other = if other = id then .internal page'
      else relinkedPages (link (h := 0) merged)
      (fun pid => if pid = first.pageId then .leaf merged else st.pages pid) other)
    (collapsed kept : List (Nat × Bool)) (success : Bool) :
    Ran (finishLeafMerge 0 id collapsed kept success) st₁ fun result st' =>
      Changed st st' (h := 1) ⟨id, Row.close left first ((key, second) :: right)⟩ ⟨id, row⟩
        (link (h := 0) merged) ∧
      Ending st st' (h := 1) ⟨id, Row.close left first ((key, second) :: right)⟩ ⟨id, row⟩
        (repairReport false (left.length + (right.length + 1)) success) result := by
  obtain ⟨mergedPid, -, -⟩ := joined.ids
  have apart := paired nodup
  have notFirst : id ≠ first.pageId := fun same => apart.node.1 (by simp [same])
  obtain ⟨metaNode, metaFirst, -⟩ := outside_pair outside
  have metaKept : st₁.pages DATABASE_META_PAGE_ID = st.pages DATABASE_META_PAGE_ID := by
    rw [pages, if_neg metaNode, metaPage]
    exact relinkedPages_meta (by rw [if_neg metaFirst, metaPage])
  -- The links come last: before them, the store holds the merged row.
  have merging : Holds (h := 1) (fun other => if other = id then .internal page'
    else if other = first.pageId then .leaf merged
      else st.pages other) ⟨id, row⟩ := Holds.merge (h := 0) holds nodup (if_pos rfl) named shown erased
    (holds_leaf.mpr (by rw [if_neg (by rw [mergedPid]; exact notFirst.symm), if_pos mergedPid]))
    (fun pid own outFirst outSecond => by rw [if_neg own, if_neg (by simpa using outFirst)])
  refine (finishLeafMerge_spec (show st₁.pages id = _ by rw [pages, if_pos rfl]) named shown
    (by rw [metaKept, metaPage, root]) collapsed kept
    success).imp ?_
  rintro result st' ⟨counter', frame, ending⟩
  have final : ∀ other, other ≠ DATABASE_META_PAGE_ID → st'.pages other = relinkedPages (link (h := 0) merged)
      (fun other => if other = id then .internal page' else if other = first.pageId then .leaf merged
        else st.pages other) other := by
    intro other away
    rw [frame other away, pages]
    by_cases node : other = id
    · rw [if_pos node, relinkedPages_internal (if_pos node)]
    · rw [if_neg node]
      exact relinkedPages_congr (if_neg node).symm
  have rest : (row.map (Tree.pid (h := 0))).rest.length = left.length + right.length := by
    rw [Row.length_rest_map, erased.length]
  obtain ⟨⟨_, storedNode, -⟩, -⟩ := holds_focus.mp holds
  refine ⟨⟨?_, counter'.trans counter, ?_, ?_⟩, ?_⟩
  · refine merging.relinked fun pid inside => final pid ?_
    rintro rfl
    refine outside ?_
    rw [erased.pids, pids_focus] at inside
    rw [pids_pair]
    simp only [List.mem_cons, List.mem_append, pids_leaf, mergedPid] at inside ⊢
    tauto
  · intro pid away notMeta
    rw [final pid notMeta]
    refine relinkedPages_congr ?_
    obtain ⟨notNode, notFirst, -⟩ := outside_pair away
    rw [if_neg notNode, if_neg notFirst]
  · intro pid leaf stored
    have notMeta : pid ≠ DATABASE_META_PAGE_ID := by
      rintro rfl
      rw [metaPage] at stored
      cases stored
    have notNode : pid ≠ id := by
      rintro rfl
      rw [storedNode] at stored
      cases stored
    rw [final pid notMeta]
    refine leavesKept_relinked _ _ pid (if pid = first.pageId then merged else leaf) ?_
    rw [if_neg notNode]
    split
    · rfl
    · exact stored
  · rcases ending with ⟨sameRoot, sameMeta, rfl, keyed⟩ | ⟨isRoot, alone, newRoot, newMeta, rfl⟩
    · refine .inl ⟨sameRoot.trans root, sameMeta.trans metaKept, by rw [rest, Nat.add_assoc], ?_⟩
      intro _ isRoot _
      have some_key := keyed (root.trans isRoot)
      rw [ne_eq, ← List.length_eq_zero_iff, Row.length_rest_map, List.length_eq_zero_iff] at some_key
      exact onlyChild_eq_none.mpr some_key
    · rw [← List.length_eq_zero_iff, Row.length_rest_map, List.length_eq_zero_iff] at alone
      refine .inr ⟨rfl, root.symm.trans isRoot, ?_, newMeta, rfl⟩
      rw [newRoot, onlyChild, if_pos alone]
      rfl

/-- A page whose focused leaf has just underflowed. -/
structure UnderflownLeaf (cut : Nat → Nat → Prop) (st : BTree) (id : Nat) (left : List (Tree 0 × Nat))
    (child : LeafPage)
    (right : List (Nat × Tree 0)) (below : DeleteStatus) : Prop where
  holds : Holds (h := 1) st.pages ⟨id, Row.close left child right⟩
  nodup : (pids (h := 1) ⟨id, Row.close left child right⟩).Nodup
  outside : DATABASE_META_PAGE_ID ∉ pids (h := 1) ⟨id, Row.close left child right⟩
  metaPage : st.pages DATABASE_META_PAGE_ID = .databaseMeta DATABASE_MAGIC_NUMBER st.rootPageId
  valid : ∀ leaf ∈ Tree.leaves (h := 1) ⟨id, Row.close left child right⟩, leaf.Valid
  known : ∀ leaf ∈ Tree.leaves (h := 1) ⟨id, Row.close left child right⟩,
    leaf.rightPid = 0 ∨ ∃ page, st.pages leaf.rightPid = .leaf page
  size : below.currentSize = child.used
  underflown : child.used ≤ LEAF_UNDERFLOW_THRESHOLD
  cleanLeft : ∀ entry ∈ left.head?, CleanLeftBorrow cut entry.1 child
  cleanRight : left.head?.any (fun entry => lendsFromRight entry.1 below.currentSize) = false →
    ∀ entry ∈ right.head?, CleanRightBorrow cut child entry.2

variable {child sibling : LeafPage} {result : DeleteStatus} {st' : BTree}

theorem UnderflownLeaf.agrees (before : UnderflownLeaf cut st id left child right below)
    (agrees : st.Agrees st₁) :
    UnderflownLeaf cut st₁ id left child right below := by
  refine ⟨?_, before.nodup, before.outside, ?_, before.valid, ?_, before.size, before.underflown,
    before.cleanLeft,
    before.cleanRight⟩
  · rw [agrees.pages]
    exact before.holds
  · rw [agrees.pages, agrees.root]
    exact before.metaPage
  · rw [agrees.pages]
    exact before.known

private theorem UnderflownLeaf.needed (before : UnderflownLeaf cut st id left child right below) :
    u16 ((LEAF_UNDERFLOW_THRESHOLD + 1) - below.currentSize) = child.shortage := by
  rw [before.size, shortage]

private theorem valid_pair {node : Branch (Tree 0)} (valid : ∀ leaf ∈ Tree.leaves (h := 1) node, leaf.Valid)
    (same : node = ⟨id, Row.close left first ((key, second) :: right)⟩) : first.Valid ∧ second.Valid := by
  subst same
  constructor
  · exact valid first (by rw [leaves_focus]; simp)
  · exact valid second (by rw [leaves_focus]; simp)

private theorem changed_pair
    (holds : Holds (h := 1) st.pages ⟨id, Row.close left first ((key, second) :: right)⟩)
    (nodup : (pids (h := 1) ⟨id, Row.close left first ((key, second) :: right)⟩).Nodup)
    {first' second' : LeafPage} {page : InternalPage}
    (stored : st.pages id = .internal page) (firstPid : first'.pageId = first.pageId)
    (secondPid : second'.pageId = second.pageId)
    {middle : Nat} (counter : st'.newPageOffsetIndex = st.newPageOffsetIndex)
    (pages : ∀ other, st'.pages other = if other = id then
      .internal (page.setNewBoundaryKey middle first.pageId second.pageId)
      else if other = first.pageId then .leaf first' else if other = second.pageId then .leaf second'
        else st.pages other) :
    Changed st st' (h := 1) ⟨id, Row.close left first ((key, second) :: right)⟩
      ⟨id, Row.close left first' ((middle, second') :: right)⟩ none := by
  obtain ⟨page₀, stored₀, named, shown, fresh, -, different⟩ := Holds.page (h := 0) holds nodup
  obtain rfl : page₀ = page := by
    rw [stored₀] at stored
    exact Page.internal.inj stored
  have different : first.pageId ≠ second.pageId := different
  have apart := paired nodup
  have inFirst : first.pageId ∈ pids (h := 0) first := by simp
  have inSecond : second.pageId ∈ pids (h := 0) second := by simp
  refine ⟨?_, counter, ?_, ?_⟩
  · rw [mapLeaves_id fun page _ => relink_none page]
    refine Holds.pair (h := 0) holds nodup
      (show st'.pages id = .internal
        (page₀.setNewBoundaryKey middle first.pageId second.pageId) by rw [pages, if_pos rfl]) named
      (shown.setNewBoundaryKey fresh middle) (holds_leaf.mpr ?_) firstPid (holds_leaf.mpr ?_) secondPid ?_
    · rw [pages, firstPid, if_neg fun same => apart.node.1 (by rw [← same]; exact inFirst), if_pos rfl]
    · rw [pages, secondPid, if_neg fun same => apart.node.2 (by rw [← same]; exact inSecond),
        if_neg (Ne.symm different), if_pos rfl]
    · intro pid own outFirst outSecond
      rw [pages, if_neg own, if_neg (by simpa using outFirst), if_neg (by simpa using outSecond)]
  · intro pid away _
    obtain ⟨notNode, notFirst, notSecond⟩ := outside_pair away
    rw [pages, if_neg notNode, if_neg notFirst, if_neg notSecond, relinkedPages_none]
  · intro pid leaf found
    have notNode : pid ≠ id := by
      rintro rfl
      rw [stored₀] at found
      cases found
    rw [pages, if_neg notNode]
    split
    · exact ⟨_, rfl⟩
    · split
      · exact ⟨_, rfl⟩
      · exact ⟨leaf, found⟩

private theorem lendLeft_spec (before : UnderflownLeaf cut st id ((sibling, key) :: left) child right below)
    (lends : (sibling.canLendFromRight child.shortage).canBorrow = true) (otherwise : TreeM DeleteStatus) :
    Ran (borrowLeaf LeafPage.canLendFromRight LeafPage.handleLeftBorrow id child.pageId sibling.pageId
      child.pageId below
      (.ok sibling.pageId) otherwise) st
        (Repairs (h := 0) cut st id ((sibling, key) :: left) child right below) := by
  obtain ⟨siblingValid, childValid⟩ := valid_pair before.valid rfl
  have needed := before.needed
  have lending : lendsFromRight (h := 0) sibling below.currentSize = true := by
    rw [lendsFromRight, needed]; exact lends
  have rotated := leftBorrowed_spec childValid siblingValid before.underflown lends (before.cleanLeft _ rfl)
  obtain ⟨page, stored, -, -, -, -, different⟩ := Holds.page (h := 0) before.holds before.nodup
  obtain ⟨metaNode, metaFirst, metaSecond⟩ := outside_pair before.outside
  have apart := paired before.nodup
  obtain ⟨-, lefts, here, -⟩ := holds_focus.mp before.holds
  refine (borrowLeaf_agreed stored (show st.pages sibling.pageId = .leaf sibling from
    lefts sibling key (.head _))
    (show st.pages child.pageId = .leaf child from here)
    ⟨fun same => apart.node.2 (by simp [same]), fun same => apart.node.1 (by simp [same]),
      Ne.symm different⟩ (by rw [needed]; exact lends)
    (by rw [needed])).imp ?_
  rintro result st' ⟨rfl, root, counter, pages⟩
  refine ⟨_, none, .lendLeft lending rotated ⟨rfl, rfl⟩,
    changed_pair before.holds before.nodup stored rotated.leftIds.1 rotated.rightIds.1 counter pages,
      .inl ⟨root, ?_, ?_, fun _ _ _ => by rw [onlyChild_eq_none]; simp [← List.length_eq_zero_iff]⟩⟩
  · rw [pages, if_neg metaNode, if_neg metaFirst, if_neg metaSecond]
  · simp [siblingLends, lending, repairReport]

private theorem lendRight_spec (before : UnderflownLeaf cut st id left child ((key, sibling) :: right) below)
    (refused : left.head?.any (fun entry => lendsFromRight entry.1 below.currentSize) = false)
    (lends : (sibling.canLendFromLeft child.shortage).canBorrow = true) (otherwise : TreeM DeleteStatus) :
    Ran (borrowLeaf LeafPage.canLendFromLeft LeafPage.handleRightBorrow id child.pageId child.pageId
      sibling.pageId below
      (.ok sibling.pageId) otherwise) st
        (Repairs (h := 0) cut st id left child ((key, sibling) :: right) below) := by
  obtain ⟨childValid, siblingValid⟩ := valid_pair before.valid rfl
  have needed := before.needed
  have lending : lendsFromLeft (h := 0) sibling below.currentSize = true := by
    rw [lendsFromLeft, needed]; exact lends
  have rotated := rightBorrowed_spec childValid siblingValid before.underflown lends
    (before.cleanRight refused _ rfl)
  obtain ⟨page, stored, -, -, -, -, different⟩ := Holds.page (h := 0) before.holds before.nodup
  obtain ⟨metaNode, metaFirst, metaSecond⟩ := outside_pair before.outside
  have apart := paired before.nodup
  obtain ⟨-, -, here, rights⟩ := holds_focus.mp before.holds
  refine (borrowLeaf_agreed stored (show st.pages sibling.pageId = .leaf sibling from
    rights key sibling (.head _))
    (show st.pages child.pageId = .leaf child from here)
    ⟨fun same => apart.node.1 (by simp [same]), fun same => apart.node.2 (by simp [same]), different⟩
      (by rw [needed]; exact lends)
    (by rw [needed])).imp ?_
  rintro result st' ⟨rfl, root, counter, pages⟩
  refine ⟨_, none, .lendRight lending rotated ⟨rfl, rfl⟩ refused,
    changed_pair before.holds before.nodup stored rotated.leftIds.1 rotated.rightIds.1 counter
      fun other => ?_,
      .inl ⟨root, ?_, ?_, fun _ _ _ => by rw [onlyChild_eq_none]; simp [← List.length_eq_zero_iff]⟩⟩
  · have different : child.pageId ≠ sibling.pageId := different
    rw [pages]
    by_cases lender : other = sibling.pageId
    · simp only [lender, if_true, if_neg (Ne.symm different)]
      rfl
    · simp only [if_neg lender]
      rfl
  · rw [pages, if_neg metaNode, if_neg metaSecond, if_neg metaFirst]
  · simp [siblingLends, lending, repairReport]

private theorem neighbour_known {st₁ : BTree} {second : LeafPage}
    (kept : ∀ other page, st.pages other = .leaf page → ∃ page', st₁.pages other = .leaf page')
    (known : second.rightPid = 0 ∨ ∃ page, st.pages second.rightPid = .leaf page)
    (joined : LeafMerged first second merged) :
    merged.rightPid = 0 ∨ ∃ page, st₁.pages merged.rightPid = .leaf page := by
  rw [joined.ids.2.2]
  rcases known with none | ⟨page, stored⟩
  · exact .inl none
  · exact .inr (kept _ page stored)

private theorem right_leaf_mem :
    second ∈ Tree.leaves (h := 1) ⟨id, Row.close left first ((key, second) :: right)⟩ := by
  rw [leaves_focus]
  simp

private theorem mergeLeafLeft_spec
    (before : UnderflownLeaf cut st id ((sibling, key) :: left) child right below)
    (refused : siblingLends (h := 0) ((sibling, key) :: left) right below.currentSize = false) :
    Ran (mergeLeafLeft 0 id sibling.pageId child.pageId below.success) st
      (Repairs (h := 0) cut st id ((sibling, key) :: left) child right below) := by
  obtain ⟨siblingValid, childValid⟩ := valid_pair before.valid rfl
  have refusedLeft : (sibling.canLendFromRight child.shortage).canBorrow = false := by
    have both := refused
    rw [siblingLends, Bool.or_eq_false_iff, List.head?_cons, Option.any_some, lendsFromRight,
      before.needed] at both
    exact both.1
  obtain ⟨merged, merges, joined⟩ := mergePages_refused siblingValid childValid
    (room_of_refused_left siblingValid before.underflown refusedLeft)
  obtain ⟨page, stored, named, shown, fresh, freshSecond, different⟩ :=
    Holds.page (h := 0) before.holds before.nodup
  have apart := paired before.nodup
  have notFirst : id ≠ sibling.pageId := fun same => apart.node.1 (by simp [same])
  obtain ⟨-, lefts, here, -⟩ := holds_focus.mp before.holds
  rw [mergeLeafLeft, ran_bind, ran_mergeLeaves (lefts sibling key (.head _)) here merges, ran_bind]
  have known := before.known child
      (show child ∈ Tree.leaves (h := 1) ⟨id, Row.close left sibling ((key, child) :: right)⟩ from
      right_leaf_mem)
  refine (repairNeighbour_spec merged (by simp) (neighbour_known ?_ known joined)).imp ?_
  · intro other leaf stored
    simp only [pages_record, pages_setPage]
    split
    · exact ⟨merged, rfl⟩
    · exact ⟨leaf, stored⟩
  rintro _ st₁ ⟨root, counter, pages⟩
  rw [ran_bind, ran_deleteKeyAndChildPtr page (by
    rw [pages]
    exact relinkedPages_internal (by simpa [notFirst] using stored))]
  obtain ⟨row, shows_, erased⟩ := exists_erased shown fresh freshSecond different joined.ids.1
  refine (finishLeafMerge_merged before.holds before.nodup before.outside before.metaPage joined
    (page.deleteKeyAndChildPtr sibling.pageId child.pageId) named shows_ erased (by simpa using root)
      (by simpa using counter) ?_ _ _ _).imp ?_
  · intro other
    simp only [pages_record, pages_setPage, pages]
    rfl
  · rintro result st' ⟨changed, ending⟩
    refine ⟨_, _, .mergeLeft refused joined merges erased, changed, ?_⟩
    rw [refused, List.length_cons, Nat.add_assoc, Nat.add_comm 1]
    exact ending

private theorem mergeLeafRight_spec
    (before : UnderflownLeaf cut st id [] child ((key, sibling) :: right) below)
    (refused : siblingLends (h := 0) [] ((key, sibling) :: right) below.currentSize = false) :
    Ran (mergeLeafRight 0 id child.pageId sibling.pageId below.success) st
      (Repairs (h := 0) cut st id [] child ((key, sibling) :: right) below) := by
  obtain ⟨childValid, siblingValid⟩ := valid_pair before.valid rfl
  have refusedRight : (sibling.canLendFromLeft child.shortage).canBorrow = false := by
    have both := refused
    rw [siblingLends, Bool.or_eq_false_iff, List.head?_cons, Option.any_some, lendsFromLeft,
      before.needed] at both
    exact both.2
  obtain ⟨merged, merges, joined⟩ := mergePages_refused childValid siblingValid
    (room_of_refused_right siblingValid before.underflown refusedRight)
  obtain ⟨page, stored, named, shown, fresh, freshSecond, different⟩ :=
    Holds.page (h := 0) before.holds before.nodup
  have apart := paired before.nodup
  have notFirst : id ≠ child.pageId := fun same => apart.node.1 (by simp [same])
  obtain ⟨-, -, here, rights⟩ := holds_focus.mp before.holds
  rw [mergeLeafRight, ran_bind, ran_mergeLeaves here (rights key sibling (.head _)) merges, ran_bind,
    ran_deleteKeyAndChildPtr page (by simpa [notFirst] using stored), ran_bind]
  have known := before.known sibling
      (show sibling ∈ Tree.leaves (h := 1) ⟨id, Row.close [] child ((key, sibling) :: right)⟩ from
      right_leaf_mem)
  refine (repairNeighbour_spec merged (by simp [notFirst.symm]) (neighbour_known ?_ known joined)).imp ?_
  · intro other leaf found
    have notNode : other ≠ id := by
      rintro rfl
      rw [stored] at found
      cases found
    simp only [pages_record, pages_setPage, if_neg notNode]
    split
    · exact ⟨merged, rfl⟩
    · exact ⟨leaf, found⟩
  rintro _ st₁ ⟨root, counter, pages⟩
  obtain ⟨row, shows_, erased⟩ := exists_erased shown fresh freshSecond different joined.ids.1
  refine (finishLeafMerge_merged before.holds before.nodup before.outside before.metaPage joined
    (page.deleteKeyAndChildPtr child.pageId sibling.pageId) named shows_ erased (by simpa using root)
      (by simpa using counter) ?_ _ _ _).imp ?_
  · intro other
    rw [pages]
    split
    next node => exact relinkedPages_internal (by simp [node])
    next away => exact relinkedPages_congr (by simp [away])
  · rintro result st' ⟨changed, ending⟩
    refine ⟨_, _, .mergeRight refused joined merges erased, changed, ?_⟩
    rw [refused]
    exact ending

private theorem rightRepair_spec (before : UnderflownLeaf cut st id left child right below)
    (refused : left.head?.any (fun entry => lendsFromRight entry.1 below.currentSize) = false)
    {rightCheck : Except ErrType Nat}
    (found : rightCheck.toOption = right.head?.map fun entry => entry.2.pid) (otherwise : TreeM DeleteStatus)
    (continues : ∀ st₁, st.Agrees st₁ → siblingLends (h := 0) left right below.currentSize = false →
      Ran otherwise st₁ (Repairs (h := 0) cut st₁ id left child right below)) :
    Ran (borrowLeaf LeafPage.canLendFromLeft LeafPage.handleRightBorrow id child.pageId child.pageId
      (rightCheck.toOption.getD 0) below
      rightCheck otherwise) st (Repairs (h := 0) cut st id left child right below) := by
  cases rightCheck with
  | error missing =>
    obtain rfl := eq_nil_of_error found
    exact continues st (.refl st) (by rw [siblingLends, refused]; rfl)
  | ok rightPid =>
    obtain ⟨⟨key, sibling⟩, right, rfl, rfl⟩ := eq_cons_of_ok found
    obtain ⟨-, -, -, rights⟩ := holds_focus.mp before.holds
    by_cases lends : (LeafPage.canLendFromLeft sibling child.shortage).canBorrow = true
    · exact lendRight_spec before refused lends otherwise
    · have refusedRight := Bool.eq_false_iff.mpr lends
      refine (borrowLeaf_refused (rights key sibling (.head _))
        (by rw [before.needed]; exact refusedRight)).mpr ?_
      have agrees : st.Agrees (((st.record (.request sibling.pageId)).record (.read sibling.pageId)).record
        (.release sibling.pageId false)) := ⟨rfl, rfl, rfl⟩
      refine (continues _ agrees ?_).imp fun result st' => Repairs.of_agrees agrees
      rw [siblingLends, refused, List.head?_cons, Option.any_some, lendsFromLeft, before.needed]
      exact refusedRight

private theorem fallThrough_spec (before : UnderflownLeaf cut st id [] child [] below) :
    Ran (fallThrough id) st (Repairs (h := 0) cut st id [] child [] below) := by
  simp only [fallThrough, ran_bind, ran_releasePage, ran_pure]
  refine ⟨_, none, .orphan, ⟨?_, rfl, fun _ _ _ => rfl, fun _ page stored => ⟨page, stored⟩⟩,
    .inl ⟨rfl, rfl, rfl, fun _ _ none => none⟩⟩
  rw [mapLeaves_id fun page _ => relink_none page]
  exact before.holds

/-- Repairing a page whose leaf has underflowed is a repair of the tree. -/
theorem repairLeaf_spec (before : UnderflownLeaf cut st id left child right below) :
    Ran (repairLeaf 0 id child.pageId below) st (Repairs (h := 0) cut st id left child right below) := by
  obtain ⟨page, stored, siblings⟩ := Holds.siblings (h := 0) before.holds before.nodup
  obtain ⟨leftFound, -⟩ := siblings .leftLeafSiblingDoesNotExist
  obtain ⟨-, rightFound⟩ := siblings .rightLeafSiblingDoesNotExist
  simp only [repairLeaf, ran_bind, ran_readInternal _ stored]
  have agrees : st.Agrees (st.record (.read id)) := ⟨rfl, rfl, rfl⟩
  refine Ran.imp ?_ fun result st' => Repairs.of_agrees agrees
  have before := before.agrees agrees
  rw [InternalPage.getLeafLeftSibling, InternalPage.getLeafRightSibling]
  rw [pid_leaf] at leftFound rightFound
  generalize page.leftSibling child.pageId _ = leftCheck at leftFound ⊢
  generalize page.rightSibling child.pageId _ = rightCheck at rightFound ⊢
  cases leftCheck with
  | error missing =>
    obtain rfl := eq_nil_of_error leftFound
    refine rightRepair_spec before rfl rightFound _ ?_
    intro st₁ agrees refused
    have before := before.agrees agrees
    cases rightCheck with
    | error missing =>
      obtain rfl := eq_nil_of_error rightFound
      exact fallThrough_spec before
    | ok rightPid =>
      obtain ⟨⟨key, sibling⟩, right, rfl, rfl⟩ := eq_cons_of_ok rightFound
      exact mergeLeafRight_spec before refused
  | ok leftPid =>
    obtain ⟨⟨sibling, key⟩, left, rfl, rfl⟩ := eq_cons_of_ok leftFound
    by_cases lends : (LeafPage.canLendFromRight sibling child.shortage).canBorrow = true
    · exact lendLeft_spec before lends _
    · have refusedLeft := Bool.eq_false_iff.mpr lends
      obtain ⟨-, lefts, -, -⟩ := holds_focus.mp before.holds
      refine (borrowLeaf_refused (lefts sibling key (.head _))
        (by rw [before.needed]; exact refusedLeft)).mpr ?_
      have again : (st.record (.read id)).Agrees
        ((((st.record (.read id)).record (.request sibling.pageId)).record
        (.read sibling.pageId)).record (.release sibling.pageId false)) := ⟨rfl, rfl, rfl⟩
      refine Ran.imp ?_ fun result st' => Repairs.of_agrees again
      refine rightRepair_spec (before.agrees again) ?_ rightFound _ ?_
      · rw [List.head?_cons, Option.any_some, lendsFromRight, before.needed]
        exact refusedLeft
      · intro st₁ agrees refused
        exact mergeLeafLeft_spec ((before.agrees again).agrees agrees) refused

end Repair

end Tree
end Datashil
