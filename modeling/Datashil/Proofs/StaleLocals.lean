import Datashil.Proofs.Delete

/-! Deletions side by side that differ in what the uninitialised locals of `Delete` hold. What comes
in is added to the size that is reported after a merge, and decides what is done on the next level
up. -/

namespace Datashil
open Library LeafPage BTree

/-- What came in is part of what goes out. -/
theorem InternalPage.checkUnderflow_eq (page : InternalPage) (usedspace : Nat) :
    page.checkUnderflow usedspace =
      ((usedspace + (16 * page.numKeys + 8)) % 65536,
        decide ((usedspace + (16 * page.numKeys + 8)) % 65536 ≤ INTERNAL_UNDERFLOW_THRESHOLD)) := by
  have total : u16 (usedspace + (page.numKeys * SIZEOF_KEY : Nat) +
    ((page.numKeys + 1) * SIZEOF_PAGE_ID : Nat)) =
      (usedspace + (16 * page.numKeys + 8)) % 65536 := by
    simp only [u16, SIZEOF_KEY, SIZEOF_PAGE_ID]
    omega
  simp only [checkUnderflow, total]

/-- A report with what the local held added to the size of an internal page. Where two runs of a
deletion differ in their locals only, this is how the reports below a page can differ. -/
def DeleteStatus.stained (stale : Nat) (status : DeleteStatus) : DeleteStatus :=
  if status.pageType = .internalPage then
    { status with
      underflown := (stale + status.currentSize) % 65536 ≤ INTERNAL_UNDERFLOW_THRESHOLD
      currentSize := (stale + status.currentSize) % 65536 }
  else status

@[simp] theorem DeleteStatus.stained_success (stale : Nat) (status : DeleteStatus) :
    (status.stained stale).success = status.success := by
  rw [stained]
  split <;> rfl

namespace Tree

/-! ### Merges -/

section Merge
variable (stale : Nat) {pid toPid fromPid : Nat} {success : Bool}

theorem finishLeafMerge_stained (collapsed kept : List (Nat × Bool)) :
    finishLeafMerge stale pid collapsed kept success =
      DeleteStatus.stained stale <$> finishLeafMerge 0 pid collapsed kept success := by
  simp only [finishLeafMerge, map_bind, InternalPage.checkUnderflow_eq]
  congr 1
  funext page
  congr 1
  funext tree
  split
  · simp [DeleteStatus.stained]
  · simp [DeleteStatus.stained]

theorem mergeLeafLeft_stained : mergeLeafLeft stale pid toPid fromPid success =
    DeleteStatus.stained stale <$> mergeLeafLeft 0 pid toPid fromPid success := by
  simp only [mergeLeafLeft, map_bind, finishLeafMerge_stained stale]

theorem mergeLeafRight_stained : mergeLeafRight stale pid toPid fromPid success =
    DeleteStatus.stained stale <$> mergeLeafRight 0 pid toPid fromPid success := by
  simp only [mergeLeafRight, map_bind, finishLeafMerge_stained stale]

end Merge

/-! ### Repairs of leaves -/

/-- One program does what another does, up to what a stale local adds to the report if there is a
merge. -/
structure Stains (stale : Nat) (merges : Prop) (first second : TreeM DeleteStatus) (st : BTree) : Prop where
  merged : merges → first st = (DeleteStatus.stained stale <$> second) st
  otherwise : ¬ merges → first st = second st

theorem Stains.of_run {stale : Nat} {merges : Prop} {first second first' second' : TreeM DeleteStatus}
    {st st₁ : BTree}
    (stains : Stains stale merges first' second' st₁) (run : first st = first' st₁)
    (run' : second st = second' st₁) :
    Stains stale merges first second st := by
  refine ⟨fun merged => ?_, fun not => ?_⟩
  · rw [run, stains.merged merged]
    exact (map_congr_run run' _).symm
  · rw [run, stains.otherwise not, run']

section Borrow
variable {canLend : LeafPage → Nat → BorrowQuery}
    {handleBorrow : LeafPage → LeafPage → BorrowQuery → LeafPage × LeafPage × Nat}
  {st : BTree} {pid childPid siblingPid leftPid rightPid : Nat} {below : DeleteStatus}
  {otherwise otherwise' : TreeM DeleteStatus}
  {sibling : LeafPage} (stored : st.pages siblingPid = .leaf sibling)
include stored

theorem borrowLeaf_lends
    (agreed : (canLend sibling (u16 ((LEAF_UNDERFLOW_THRESHOLD + 1) - below.currentSize))).canBorrow = true) :
    borrowLeaf canLend handleBorrow pid childPid leftPid rightPid below (.ok siblingPid) otherwise st =
      borrowLeaf canLend handleBorrow pid childPid leftPid rightPid below (.ok siblingPid) otherwise' st := by
  simp only [borrowLeaf, requestPage_bind,
    readLeaf_bind (show (st.record (.request siblingPid)).pages siblingPid = _ from stored), agreed,
    ite_true]

theorem borrowLeaf_refuses
    (refused : (canLend sibling (u16 ((LEAF_UNDERFLOW_THRESHOLD + 1) - below.currentSize))).canBorrow =
      false) :
    borrowLeaf canLend handleBorrow pid childPid leftPid rightPid below (.ok siblingPid) otherwise st =
      otherwise (((st.record (.request siblingPid)).record (.read siblingPid)).record
        (.release siblingPid false)) := by
  simp only [borrowLeaf, requestPage_bind,
    readLeaf_bind (show (st.record (.request siblingPid)).pages siblingPid = _ from stored), refused,
    Bool.false_eq_true, ite_false, releasePage_bind]

end Borrow

section Repair
variable {cut : Nat → Nat → Prop} {st : BTree} {id : Nat} {left : List (Tree 0 × Nat)}
    {child : LeafPage} {right : List (Nat × Tree 0)}
  {below : DeleteStatus} (stale : Nat)

/-- The leaves around a place are merged: there is a sibling, and none lends. -/
def LeavesMerge (left : List (Tree 0 × Nat)) (right : List (Nat × Tree 0)) (size : Nat) : Prop :=
  left.length + right.length ≠ 0 ∧ siblingLends left right size = false

private theorem rightRepair_stains (before : UnderflownLeaf cut st id left child right below)
    (refused : left.head?.any (fun entry => lendsFromRight entry.1 below.currentSize) = false)
    {rightCheck : Except ErrType Nat}
    (found : rightCheck.toOption = right.head?.map fun entry => entry.2.pid)
    {first second : TreeM DeleteStatus}
    (continues : ∀ st₁, siblingLends (h := 0) left right below.currentSize = false →
      Stains stale (LeavesMerge left right below.currentSize) first second st₁) :
    Stains stale (LeavesMerge left right below.currentSize)
      (borrowLeaf LeafPage.canLendFromLeft LeafPage.handleRightBorrow id child.pageId child.pageId
        (rightCheck.toOption.getD 0) below rightCheck first)
      (borrowLeaf LeafPage.canLendFromLeft LeafPage.handleRightBorrow id child.pageId child.pageId
        (rightCheck.toOption.getD 0) below rightCheck second)
      st := by
  cases rightCheck with
  | error missing =>
    obtain rfl := eq_nil_of_error found
    exact continues st (by rw [siblingLends, refused]; rfl)
  | ok rightPid =>
    obtain ⟨⟨key, sibling⟩, right, rfl, rfl⟩ := eq_cons_of_ok found
    obtain ⟨-, -, -, rights⟩ := holds_focus.mp before.holds
    have stored := rights key sibling (.head _)
    by_cases lends : (LeafPage.canLendFromLeft sibling
      (u16 ((LEAF_UNDERFLOW_THRESHOLD + 1) - below.currentSize))).canBorrow = true
    · refine ⟨fun merges => ?_, fun _ => borrowLeaf_lends stored lends⟩
      have none := merges.2
      rw [siblingLends, refused, List.head?_cons, Option.any_some, lendsFromLeft, lends] at none
      cases none
    · have refusedRight := Bool.eq_false_iff.mpr lends
      refine (continues _ ?_).of_run (borrowLeaf_refuses stored refusedRight)
        (borrowLeaf_refuses stored refusedRight)
      rw [siblingLends, refused, List.head?_cons, Option.any_some, lendsFromLeft]
      exact refusedRight

/-- A repair that borrows does not look at the local. -/
theorem repairLeaf_stains (before : UnderflownLeaf cut st id left child right below) :
    Stains stale (LeavesMerge left right below.currentSize) (repairLeaf stale id child.pageId below)
      (repairLeaf 0 id child.pageId below) st := by
  obtain ⟨page, stored, siblings⟩ := Holds.siblings (h := 0) before.holds before.nodup
  obtain ⟨leftFound, -⟩ := siblings .leftLeafSiblingDoesNotExist
  obtain ⟨-, rightFound⟩ := siblings .rightLeafSiblingDoesNotExist
  refine Stains.of_run ?_ (readInternal_bind stored _) (readInternal_bind stored _)
  have agrees : st.Agrees (st.record (.read id)) := ⟨rfl, rfl, rfl⟩
  have before := before.agrees agrees
  simp only [InternalPage.getLeafLeftSibling, InternalPage.getLeafRightSibling]
  rw [pid_leaf] at leftFound rightFound
  generalize page.leftSibling child.pageId _ = leftCheck at leftFound ⊢
  generalize page.rightSibling child.pageId _ = rightCheck at rightFound ⊢
  cases leftCheck with
  | error missing =>
    obtain rfl := eq_nil_of_error leftFound
    refine rightRepair_stains stale before rfl rightFound ?_
    intro st₁ refused
    cases rightCheck with
    | error missing =>
      obtain rfl := eq_nil_of_error rightFound
      exact ⟨fun merges => absurd rfl merges.1, fun _ => rfl⟩
    | ok rightPid =>
      obtain ⟨entry, right, rfl, rfl⟩ := eq_cons_of_ok rightFound
      exact ⟨fun _ => congrFun (mergeLeafRight_stained stale) _, fun not => absurd ⟨by simp, refused⟩ not⟩
  | ok leftPid =>
    obtain ⟨⟨sibling, key⟩, left, rfl, rfl⟩ := eq_cons_of_ok leftFound
    obtain ⟨-, lefts, -, -⟩ := holds_focus.mp before.holds
    have stored := lefts sibling key (.head _)
    by_cases lends : (LeafPage.canLendFromRight sibling
      (u16 ((LEAF_UNDERFLOW_THRESHOLD + 1) - below.currentSize))).canBorrow = true
    · refine ⟨fun merges => ?_, fun _ => borrowLeaf_lends stored lends⟩
      have none := merges.2
      rw [siblingLends, List.head?_cons, Option.any_some, lendsFromRight, lends] at none
      cases none
    · have refusedLeft := Bool.eq_false_iff.mpr lends
      refine Stains.of_run ?_ (borrowLeaf_refuses stored refusedLeft) (borrowLeaf_refuses stored refusedLeft)
      refine rightRepair_stains stale (before.agrees ?_) ?_ rightFound ?_
      · exact ⟨rfl, rfl, rfl⟩
      · rw [List.head?_cons, Option.any_some, lendsFromRight]
        exact refusedLeft
      · intro st₁ refused
        exact ⟨fun _ => congrFun (mergeLeafLeft_stained stale) _, fun not => absurd ⟨by simp, refused⟩ not⟩

end Repair

/-! ### Pages right above leaves -/

theorem lowSize_close {h id key : Nat} {left : List (Tree h × Nat)} {child : Tree h}
    {right : List (Nat × Tree h)} (place : Row.Found left key right) :
    lowSize (h := h + 1) key ⟨id, Row.close left child right⟩ =
      match lowSize key child with
      | none => none
      | some size =>
        let keys := (Row.close left child right).rest.length
        let used := (keys - 1) * SIZEOF_KEY + (keys - 1 + 1) * SIZEOF_PAGE_ID
        if siblingLends left right size = false ∧ keys ≠ 0 ∧ used ≤ INTERNAL_UNDERFLOW_THRESHOLD then
          some used else none := by
  cases low : lowSize key child <;> simp only [lowSize, Row.focus_close child place, low]

section Leaves
variable {cut : Nat → Nat → Prop} {st : BTree} {key fuel : Nat} {tree : Tree 1}

def MergesLeaves (key : Nat) (tree : Tree 1) : Prop :=
  let (left, child, right) := (Branch.row tree).focus key
  ∃ size, lowSize key child = some size ∧ LeavesMerge left right size

theorem mergesLeaves_close {id : Nat} {left : List (Tree 0 × Nat)} {child : Tree 0}
    {right : List (Nat × Tree 0)} (place : Row.Found left key right) :
    MergesLeaves key ⟨id, Row.close left child right⟩ ↔ ∃ size, lowSize key child = some size ∧
      LeavesMerge left right size := by
  rw [MergesLeaves, Row.focus_close child place]

/-- Where leaves do not merge, their page keeps enough bytes. -/
theorem lowSize_none (calm : ¬ MergesLeaves key tree) : lowSize key tree = none := by
  obtain ⟨id, row⟩ := tree
  obtain ⟨left, child, right, rfl, place⟩ := row.exists_found key
  rw [mergesLeaves_close place] at calm
  rw [lowSize_close place]
  cases low : lowSize key child with
  | none => rfl
  | some size =>
    refine if_neg fun both => calm ⟨size, low, ?_, both.1⟩
    rw [← Row.length_rest_close left child right]
    exact both.2.1

theorem deleteFrom_leaf_any {page : LeafPage} {st : BTree} (stored : st.pages page.pageId = .leaf page)
    (some_fuel : 0 < fuel) (stale stale' : Nat → Nat) :
    deleteFrom stale fuel page.pageId key st = deleteFrom stale' fuel page.pageId key st := by
  obtain ⟨fuel, rfl⟩ := Nat.exists_eq_add_of_lt some_fuel
  simp only [deleteFrom, requestPage_bind, readPage_bind, pages_record, stored]

theorem deleteFrom_stains (before : Deletable cut key st tree) (enough : 1 < fuel) (stale : Nat → Nat) :
    Stains (stale tree.pid) (MergesLeaves key tree) (deleteFrom stale fuel tree.pid key)
      (deleteFrom (fun _ => 0) fuel tree.pid key) st := by
  obtain ⟨fuel, rfl⟩ : ∃ rest, fuel = rest + 1 := ⟨fuel - 1, by omega⟩
  obtain ⟨id, row⟩ := tree
  obtain ⟨left, child, right, rfl, place⟩ := row.exists_found key
  obtain ⟨⟨page, stored, named, shown⟩, -⟩ := holds_focus.mp before.holds
  have agrees : st.Agrees ((st.record (.request id)).record (.read id)) := ⟨rfl, rfl, rfl⟩
  have below := (before.child place).agrees agrees
  rw [mergesLeaves_close place]
  obtain ⟨report, st₁, ended, deletes⟩ := deleteFrom_spec fuel (Nat.lt_of_succ_lt_succ enough) below
  have ended' := ended
  rw [pid_leaf, deleteFrom_leaf_any (show _ = Page.leaf child from below.holds)
    (Nat.lt_of_succ_lt_succ enough) _ stale] at ended'
  obtain ⟨child', fix, deleted, changed, ending⟩ := deletes.of_agrees agrees
  obtain ⟨root, metaPage, rfl, -⟩ := ending.resolve_right fun low => absurd low.1 (by decide)
  have kind : (Tree.report (h := 0) key child).pageType = .leafPage := rfl
  obtain ⟨low, sized⟩ := report_lowSize (h := 0) key child
  have run : ∀ stale : Nat → Nat,
      deleteFrom stale fuel child.pageId key ((st.record (.request id)).record (.read id)) =
      .ok (report (h := 0) key child) st₁ →
      deleteFrom stale (fuel + 1) id key st =
        (if (report (h := 0) key child).underflown then
          repairLeaf (stale id) id child.pageId (report (h := 0) key child)
        else do
          releasePage id true
          return settled (report (h := 0) key child).success) st₁ := by
    intro stale ended
    simp only [deleteFrom, requestPage_bind, readPage_bind, pages_record, stored,
      shown.getChildPageId (found_pids place), pid_leaf,
      bind_of_run ended, kind]
  refine Stains.of_run ?_ (run stale ended') (run (fun _ => 0) ended)
  split
  next underflown =>
    obtain ⟨samePid, below⟩ := before.underflownLeaf place deleted changed root metaPage underflown
    obtain ⟨size, found⟩ := Option.isSome_iff_exists.mp (low.symm.trans underflown)
    have repairs := repairLeaf_stains (stale id) below
    rw [sized size found, samePid] at repairs
    refine ⟨fun merges => repairs.merged ?_, fun not => repairs.otherwise fun merges =>
      not ⟨size, found, merges⟩⟩
    obtain ⟨_, same, merges⟩ := merges
    cases found.symm.trans same
    exact merges
  next calm =>
    refine ⟨fun merges => ?_, fun _ => rfl⟩
    obtain ⟨size, found, -⟩ := merges
    rw [low, found] at calm
    exact absurd rfl calm

/-- One run tells all others: they end in the same state, and their reports differ by what the local
held. -/
theorem deleteFrom_runs (before : Deletable cut key st tree) (enough : 1 < fuel) :
    ∃ result final, Deletes cut key st tree result final ∧
    (MergesLeaves key tree → ∀ stale, deleteFrom stale fuel tree.pid key st =
      .ok (result.stained (stale tree.pid)) final) ∧
    (¬ MergesLeaves key tree → ∀ stale, deleteFrom stale fuel tree.pid key st = .ok result final) := by
  obtain ⟨result, final, ended, deletes⟩ := deleteFrom_spec fuel enough before
  refine ⟨result, final, deletes, fun merges stale => ?_, fun calm stale => ?_⟩
  · rw [(deleteFrom_stains before enough stale).merged merges]
    exact map_of_run ended _
  · rw [(deleteFrom_stains before enough stale).otherwise calm, ended]

end Leaves

/-! ### Pages above -/

structure Calm (success : Bool) (result : DeleteStatus) : Prop where
  pageType : result.pageType = .internalPage
  underflown : result.underflown = false
  success : result.success = success

theorem calm_settled (success : Bool) : Calm success (settled success) := ⟨rfl, rfl, rfl⟩

section Above
variable {h : Nat} {cut : Nat → Nat → Prop} {st : BTree} {id key fuel childPid : Nat}
    {stale : Nat → Nat} {success : Bool} {page : InternalPage}

/-- Below a page that needs no repair, no page needs one either. -/
theorem deleteFrom_calm (stored : st.pages id = .internal page)
    (here : page.getChildPageId key = childPid) {post : BTree → Prop}
    (kept : ∀ final st', final.Agrees st' → post final → post st')
    (below : Ran (deleteFrom stale fuel childPid key) ((st.record (.request id)).record (.read id))
      fun result final => Calm success result ∧ post final) :
    Ran (deleteFrom stale (fuel + 1) id key) st fun result final => Calm success result ∧ post final := by
  simp only [deleteFrom, ran_bind, ran_requestPage, ran_readPage, pages_record, stored, here]
  refine below.imp ?_
  rintro result final ⟨calm, holds⟩
  simp only [calm.pageType, calm.underflown, Bool.false_eq_true, ite_false, ran_bind, ran_releasePage,
    ran_pure, calm.success]
  exact ⟨calm_settled success, kept final _ ⟨rfl, rfl, rfl⟩ holds⟩

/-- A child that needs repair makes its page look for siblings. -/
theorem deleteFrom_repairs (stored : st.pages id = .internal page)
    (here : page.getChildPageId key = childPid) {result : DeleteStatus} {middle : BTree}
    (below : deleteFrom stale fuel childPid key ((st.record (.request id)).record (.read id)) =
      .ok result middle)
    (pageType : result.pageType = .internalPage) (underflown : result.underflown = true)
    {post : DeleteStatus → BTree → Prop} :
    Ran (deleteFrom stale (fuel + 1) id key) st post ↔
      Ran (repairInternal (stale id) id childPid result) middle post := by
  simp only [deleteFrom, ran_bind, ran_requestPage, ran_readPage, pages_record, stored, here]
  rw [ran_of_eq below]
  simp only [pageType, underflown, ite_true]

theorem repairInternal_alone {leftMissing rightMissing : ErrType} (stored : st.pages id = .internal page)
    (left : page.getInternalLeftSibling childPid = .error leftMissing)
    (right : page.getInternalRightSibling childPid = .error rightMissing)
    (n : Nat) (below : DeleteStatus) : Ran (repairInternal n id childPid below) st fun result final =>
      Calm false result ∧ st.Agrees final := by
  simp only [repairInternal, ran_bind, ran_readInternal _ stored, left, right, borrowInternal,
    fallThrough, ran_releasePage, ran_pure]
  exact ⟨calm_settled false, rfl, rfl, rfl⟩

@[simp] theorem stained_pageType (n : Nat) (status : DeleteStatus) :
    (status.stained n).pageType = status.pageType := by
  rw [DeleteStatus.stained]
  split <;> rfl

theorem canLend_one (page : InternalPage) (lends : (page.canLend 1).canBorrow = true) :
    (page.canLend 1).borrowAmount = 1 := by
  have pairs : (1 / (SIZEOF_KEY + SIZEOF_PAGE_ID) + if 1 % (SIZEOF_KEY + SIZEOF_PAGE_ID) = 0 then 0
      else 1) = 1 := by
    decide
  simp only [InternalPage.canLend, pairs] at lends ⊢
  split at lends
  · cases lends
  next large =>
    rw [if_neg large]
    decide

end Above

section Siblings
variable {h : Nat} {st : BTree} {id : Nat} {left : List (Tree (h + 1) × Nat)} {child : Tree (h + 1)}
    {right : List (Nat × Tree (h + 1))}
  {below : DeleteStatus}

def Moves (st : BTree) (success : Bool) (result : DeleteStatus) (final : BTree) : Prop :=
  Calm success result ∧ ∃ pid, final.pages pid ≠ st.pages pid

theorem Moves.of_agrees {st st₁ final : BTree} {success : Bool} {result : DeleteStatus}
    (agrees : st.Agrees st₁) (moves : Moves st₁ success result final) :
    Moves st success result final := by
  obtain ⟨calm, pid, differs⟩ := moves
  rw [agrees.pages] at differs
  exact ⟨calm, pid, differs⟩

/-- An internal page that borrows has more keys than before. -/
private theorem borrowInternal_moves
    {handleBorrow : InternalPage → InternalPage → InternalPage → BorrowQuery →
      InternalPage × InternalPage × InternalPage}
    (grows : ∀ page child sibling report, (handleBorrow page child sibling report).2.1.numKeys =
      child.numKeys + report.borrowAmount)
    {childPid siblingPid : Nat} {page childPage sibling : InternalPage} {otherwise : TreeM DeleteStatus}
    (stored : st.pages id = .internal page)
    (siblingStored : st.pages siblingPid = .internal sibling)
    (childStored : st.pages childPid = .internal childPage) (apart : childPid ≠ siblingPid)
    (size : below.currentSize = INTERNAL_UNDERFLOW_THRESHOLD)
    (continues : ∀ st₁, st.Agrees st₁ → Ran otherwise st₁ (Moves st₁ below.success)) :
    Ran (borrowInternal handleBorrow id childPid below (.ok siblingPid) otherwise) st
      (Moves st below.success) := by
  have needed : u16 ((INTERNAL_UNDERFLOW_THRESHOLD + 1) - (INTERNAL_UNDERFLOW_THRESHOLD : Nat)) =
      1 := by
    decide
  by_cases lends : (sibling.canLend 1).canBorrow = true
  · refine (borrowInternal_agreed stored siblingStored childStored
      (by rw [size, needed]; exact lends) _ _ _ rfl).imp ?_
    rintro result final ⟨rfl, -, -, pages⟩
    refine ⟨calm_settled _, childPid, ?_⟩
    rw [pages, if_neg apart, if_pos rfl, childStored, size, needed]
    intro same
    have keys := congrArg InternalPage.numKeys (Page.internal.inj same)
    rw [grows, canLend_one _ lends] at keys
    omega
  · have refused := Bool.eq_false_iff.mpr lends
    refine (borrowInternal_refused siblingStored (by rw [size, needed]; exact refused)).mpr ?_
    have agrees : st.Agrees (((st.record (.request siblingPid)).record (.read siblingPid)).record
        (.release siblingPid false)) :=
      ⟨rfl, rfl, rfl⟩
    exact (continues _ agrees).imp fun result final => Moves.of_agrees agrees

/-- A page whose children are merged has one key less. A local that holds this much keeps the next
repair away. -/
private theorem mergeInternal_moves {a b : Nat} {page pageA pageB : InternalPage} {success : Bool}
    (stored : st.pages id = .internal page)
    (storedA : st.pages a = .internal pageA) (storedB : st.pages b = .internal pageB) (apart : id ≠ a)
    (some_keys : page.numKeys ≠ 0)
    (few : page.numKeys ≤ 254) : Ran (mergeInternal 40000 id a b success) st (Moves st success) := by
  simp only [mergeInternal, ran_bind, ran_requestPage]
  rw [ran_readInternal pageA (by simpa using storedA), ran_readInternal pageB (by simpa using storedB),
    ran_readInternal page (by simpa using stored)]
  have less : (page.deletePartitionKeyAndChildPtr a b).1.numKeys = page.numKeys - 1 := rfl
  simp only [ran_writePage, ran_releasePage, ran_pure, InternalPage.checkUnderflow_eq, less]
  refine ⟨⟨rfl, ?_, rfl⟩, id, ?_⟩
  · have threshold : INTERNAL_UNDERFLOW_THRESHOLD < 40000 := by decide
    exact decide_eq_false (by omega)
  · simp only [pages_record, pages_setPage, if_neg apart, ite_true, stored]
    intro same
    have keys := congrArg InternalPage.numKeys (Page.internal.inj same)
    rw [less] at keys
    omega

private structure Neighbours (st : BTree) (id a b : Nat) (page : InternalPage) : Prop where
  first : ∃ pageA, st.pages a = .internal pageA
  second : ∃ pageB, st.pages b = .internal pageB
  apart : id ≠ a ∧ a ≠ b
  keys : page.numKeys ≠ 0 ∧ page.numKeys ≤ 254

private theorem neighbours {left : List (Tree (h + 1) × Nat)} {first second : Tree (h + 1)} {key : Nat}
    {right : List (Nat × Tree (h + 1))}
    (holds : Holds (h := h + 2) st.pages ⟨id, Row.close left first ((key, second) :: right)⟩)
    (nodup : (pids (h := h + 2) ⟨id, Row.close left first ((key, second) :: right)⟩).Nodup)
    {page : InternalPage}
    (stored : st.pages id = .internal page) : Neighbours st id first.pid second.pid page := by
  obtain ⟨page', stored', -, shown, -, -, different⟩ := holds.page nodup
  cases Page.internal.inj (stored.symm.trans stored')
  obtain ⟨a, firstRow⟩ := first
  obtain ⟨b, secondRow⟩ := second
  obtain ⟨⟨pageA, storedA, -⟩, pageB, storedB, -⟩ := holds.nodes
  refine ⟨⟨pageA, storedA⟩, ⟨pageB, storedB⟩, ⟨fun same => (paired nodup).node.1 ?_, different⟩, ?_,
    shown.numKeys ▸ shown.fits⟩
  · rw [same]
    exact pid_mem_pids
  · rw [shown.numKeys, Row.length_rest_close, List.length_cons]
    omega

private theorem Neighbours.agrees {st st₁ : BTree} {id a b : Nat} {page : InternalPage}
    (neighbours : Neighbours st id a b page)
    (agrees : st.Agrees st₁) : Neighbours st₁ id a b page := by
  obtain ⟨first, second, apart, keys⟩ := neighbours
  exact ⟨agrees.pages ▸ first, agrees.pages ▸ second, apart, keys⟩

private theorem Neighbours.merge {a b : Nat} {page : InternalPage} {success : Bool}
    (neighbours : Neighbours st id a b page)
    (stored : st.pages id = .internal page) :
    Ran (mergeInternal 40000 id a b success) st (Moves st success) := by
  obtain ⟨⟨pageA, storedA⟩, ⟨pageB, storedB⟩, ⟨apart, -⟩, some_keys, few⟩ := neighbours
  exact mergeInternal_moves stored storedA storedB apart some_keys few

/-- A child reported with the threshold as its size makes its page borrow or merge, if there is a
sibling. -/
theorem repairInternal_moves (holds : Holds (h := h + 2) st.pages ⟨id, Row.close left child right⟩)
    (nodup : (pids (h := h + 2) ⟨id, Row.close left child right⟩).Nodup)
    (several : left.length + right.length ≠ 0)
    (size : below.currentSize = INTERNAL_UNDERFLOW_THRESHOLD) :
    Ran (repairInternal 40000 id child.pid below) st (Moves st below.success) := by
  obtain ⟨page, stored, siblings⟩ := holds.siblings nodup
  obtain ⟨leftFound, -⟩ := siblings .leftInternalSiblingDoesNotExist
  obtain ⟨-, rightFound⟩ := siblings .rightInternalSiblingDoesNotExist
  simp only [repairInternal, ran_bind, ran_readInternal _ stored]
  have agrees : st.Agrees (st.record (.read id)) := ⟨rfl, rfl, rfl⟩
  refine Ran.imp ?_ fun result final => Moves.of_agrees agrees
  rw [InternalPage.getInternalLeftSibling, InternalPage.getInternalRightSibling]
  generalize page.leftSibling child.pid _ = leftCheck at leftFound ⊢
  generalize page.rightSibling child.pid _ = rightCheck at rightFound ⊢
  have rightRepair : ∀ (otherwise : TreeM DeleteStatus) (st₁ : BTree), st.Agrees st₁ →
    (∀ st₂, st.Agrees st₂ → Ran otherwise st₂ (Moves st₂ below.success)) →
      Ran (borrowInternal InternalPage.handleRightBorrow id child.pid below rightCheck otherwise) st₁
        (Moves st₁ below.success) := by
    intro otherwise st₁ agrees continues
    cases rightCheck with
    | error missing => exact continues st₁ agrees
    | ok rightPid =>
      obtain ⟨⟨key, sibling⟩, right, rfl, rfl⟩ := eq_cons_of_ok rightFound
      obtain ⟨⟨pageA, storedA⟩, ⟨pageB, storedB⟩, ⟨-, apart⟩, -⟩ :=
        (neighbours holds nodup stored).agrees agrees
      exact borrowInternal_moves (fun _ _ _ _ => rfl) (agrees.pages ▸ stored) storedB storedA apart size
        fun st₂ again => continues st₂ (agrees.trans again)
  cases leftCheck with
  | error missing =>
    obtain rfl := eq_nil_of_error leftFound
    refine rightRepair _ _ agrees fun st₂ agrees => ?_
    cases rightCheck with
    | error missing =>
      obtain rfl := eq_nil_of_error rightFound
      exact absurd rfl several
    | ok rightPid =>
      obtain ⟨⟨key, sibling⟩, right, rfl, rfl⟩ := eq_cons_of_ok rightFound
      exact ((neighbours holds nodup stored).agrees agrees).merge (agrees.pages ▸ stored)
  | ok leftPid =>
    obtain ⟨⟨sibling, key⟩, left, rfl, rfl⟩ := eq_cons_of_ok leftFound
    have pair : Neighbours st id sibling.pid child.pid page := neighbours holds nodup stored
    obtain ⟨⟨pageA, storedA⟩, ⟨pageB, storedB⟩, ⟨-, apart⟩, -⟩ := pair.agrees agrees
    refine borrowInternal_moves (fun _ _ _ _ => rfl) stored storedA storedB apart.symm size
      fun st₁ again => ?_
    refine rightRepair _ _ (agrees.trans again) fun st₂ agrees => ?_
    exact (pair.agrees agrees).merge (agrees.pages ▸ stored)

end Siblings

/-! ### Two levels above leaves -/

/-- Where a deletion looks at the uninitialised locals, and comes out differently for it: leaves are
merged two levels below a page where this child has a sibling, or where the key is present. -/
def Consults (key : Nat) : {h : Nat} → Tree h → Prop
  | 0, _ => False
  | 1, _ => False
  | 2, node =>
    let (left, child, right) := (Branch.row node).focus key
    MergesLeaves key child ∧ (left.length + right.length ≠ 0 ∨ loses key child = true)
  | _ + 3, node => Consults key ((Branch.row node).focus key).2.1

section Consults
variable {h : Nat} {cut : Nat → Nat → Prop} {st : BTree} {id key fuel : Nat}

theorem consults_two {left : List (Tree 1 × Nat)} {child : Tree 1} {right : List (Nat × Tree 1)}
    (place : Row.Found left key right) :
    Consults (h := 2) key ⟨id, Row.close left child right⟩ ↔
      MergesLeaves key child ∧ (left.length + right.length ≠ 0 ∨ loses key child = true) := by
  rw [Consults, Row.focus_close child place]

theorem consults_above {left : List (Tree (h + 2) × Nat)} {child : Tree (h + 2)}
    {right : List (Nat × Tree (h + 2))}
    (place : Row.Found left key right) : Consults (h := h + 3) key ⟨id, Row.close left child right⟩ ↔
      Consults key child := by
  rw [Consults, Row.focus_close child place]

/-- Below a page, the leaves have lost the key, and their pages have reported. -/
structure Reported (st final : BTree) (fuel id key : Nat) (left : List (Tree 1 × Nat)) (child : Tree 1)
    (right : List (Nat × Tree 1))
    (page : InternalPage) : Prop where
  stored : st.pages id = .internal page
  here : page.getChildPageId key = child.pid
  kept : final.pages id = .internal page
  holds : ∃ (left' : List (Tree 1 × Nat)) (child' : Tree 1) (right' : List (Nat × Tree 1)),
    Holds (h := 2) final.pages ⟨id, Row.close left' child' right'⟩ ∧
      (pids (h := 2) ⟨id, Row.close left' child' right'⟩).Nodup ∧
      left'.length = left.length ∧ right'.length = right.length ∧ child'.pid = child.pid
  alone : left.length + right.length = 0 → ∃ leftMissing rightMissing,
    page.getInternalLeftSibling child.pid = .error leftMissing ∧
      page.getInternalRightSibling child.pid = .error rightMissing
  merged : MergesLeaves key child → ∀ stale : Nat → Nat,
    deleteFrom stale fuel child.pid key ((st.record (.request id)).record (.read id)) =
      .ok ((report key child).stained (stale child.pid)) final
  calm : ¬ MergesLeaves key child → ∀ stale : Nat → Nat,
    deleteFrom stale fuel child.pid key ((st.record (.request id)).record (.read id)) =
      .ok (report key child) final

variable {left : List (Tree 1 × Nat)} {child : Tree 1} {right : List (Nat × Tree 1)}

theorem exists_error {missing : Except ErrType Nat} (none : missing.toOption = none) :
    ∃ error, missing = .error error := by
  cases missing with
  | error error => exact ⟨error, rfl⟩
  | ok found => cases none

theorem Deletable.reported (before : Deletable (h := 2) cut key st ⟨id, Row.close left child right⟩)
    (place : Row.Found left key right)
    (enough : 1 < fuel) : ∃ final page, Reported st final fuel id key left child right page := by
  obtain ⟨page, stored, siblings⟩ := before.holds.siblings before.nodup
  obtain ⟨⟨page', stored', named, shown⟩, -⟩ := holds_focus.mp before.holds
  cases Page.internal.inj (stored.symm.trans stored')
  have agrees : st.Agrees ((st.record (.request id)).record (.read id)) := ⟨rfl, rfl, rfl⟩
  obtain ⟨result, final, deletes, merged, calm⟩ := deleteFrom_runs ((before.child place).agrees agrees) enough
  obtain ⟨child', fix, deleted, changed, ending⟩ := deletes.of_agrees agrees
  have valid : ∀ leaf ∈ child.leaves, leaf.Valid :=
    fun leaf member => before.valid leaf (mem_leaves_node.mpr ⟨child, by simp, member⟩)
  have samePid := deleted.pid valid
  rcases ending with ⟨-, -, rfl, -⟩ | ⟨-, sameRoot, -⟩
  swap
  · -- The root is no page below another one.
    rw [samePid] at sameRoot
    refine absurd ?_ before.below
    rw [sameRoot, pids_focus, List.tail_cons]
    simp [pid_mem_pids]
  have notMeta : id ≠ DATABASE_META_PAGE_ID := by
    rintro rfl
    exact before.outside pid_mem_pids
  obtain ⟨gone, perm⟩ := deleted.pids valid
  have fewer := @pids_replaced _ id left child child' right gone perm
  have nodup := (List.nodup_append.mp (fewer.nodup_iff.mpr before.nodup)).1
  have holds := before.holds_replaced changed samePid
  rw [← pids_mapLeaves (pageId_relink fix)] at nodup
  rw [mapLeaves_focus] at holds nodup
  refine ⟨final, page, stored, shown.getChildPageId (found_pids place), ?_,
    ⟨_, _, _, holds, nodup, ?_, ?_, ?_⟩, fun alone => ?_, merged, calm⟩
  · rw [changed.frame id (focused before.nodup).node notMeta]
    exact relinkedPages_internal stored
  · rw [mapLeft, List.length_map]
  · rw [mapRight, List.length_map]
  · rw [pid_mapLeaves (pageId_relink fix), samePid]
  · obtain ⟨rfl, rfl⟩ : left = [] ∧ right = [] :=
      ⟨List.length_eq_zero_iff.mp (by omega), List.length_eq_zero_iff.mp (by omega)⟩
    obtain ⟨leftMissing, leftError⟩ := exists_error (siblings .leftInternalSiblingDoesNotExist).1
    obtain ⟨rightMissing, rightError⟩ := exists_error (siblings .rightInternalSiblingDoesNotExist).2
    exact ⟨leftMissing, rightMissing, leftError, rightError⟩

/-- Without a sibling, what the local holds decides no more than whether the deletion is reported. -/
theorem Reported.alone_run {final : BTree} {page : InternalPage}
    (reported : Reported st final fuel id key left child right page)
    (merges : MergesLeaves key child) (alone : left.length + right.length = 0) (stale : Nat → Nat) :
    Ran (deleteFrom stale (fuel + 1) id key) st fun result st' =>
      Calm (if ((report key child).stained (stale child.pid)).underflown then false
        else (report key child).success) result ∧
        final.Agrees st' := by
  have pageType : ((report key child).stained (stale child.pid)).pageType = .internalPage := by
    rw [stained_pageType, report_internal]
  by_cases underflown : ((report key child).stained (stale child.pid)).underflown = true
  · obtain ⟨leftMissing, rightMissing, leftError, rightError⟩ := reported.alone alone
    rw [if_pos underflown]
    refine (deleteFrom_repairs reported.stored reported.here
      (reported.merged merges stale) pageType underflown).mpr ?_
    exact repairInternal_alone reported.kept leftError rightError _ _
  · rw [if_neg underflown]
    refine deleteFrom_calm reported.stored reported.here (fun _ _ again agrees => agrees.trans again) ?_
    refine (ran_of_eq (reported.merged merges stale)).mpr
      ⟨⟨pageType, Bool.eq_false_iff.mpr underflown, ?_⟩, .refl final⟩
    exact DeleteStatus.stained_success _ _

theorem merges_of_lowSize {tree : Tree 1} {size : Nat} (low : lowSize key tree = some size) :
    MergesLeaves key tree := by
  by_contra calm
  rw [lowSize_none calm] at low
  cases low

/-- A page above pages of leaves that runs low has had leaves merged below it. -/
theorem consults_of_lowSize {tree : Tree (h + 2)} {size : Nat} (low : lowSize key tree = some size) :
    Consults key tree := by
  induction h generalizing size with
  | zero =>
    obtain ⟨id, row⟩ := tree
    obtain ⟨left, child, right, rfl, place⟩ := row.exists_found key
    rw [lowSize_close place] at low
    split at low
    · cases low
    next used found =>
      dsimp only at low
      split at low
      next both =>
        rw [Row.length_rest_close] at both
        exact (consults_two place).mpr ⟨merges_of_lowSize found, .inl both.2.1⟩
      next => cases low
  | succ h ih =>
    obtain ⟨id, row⟩ := tree
    obtain ⟨left, child, right, rfl, place⟩ := row.exists_found key
    rw [lowSize_close place] at low
    split at low
    · cases low
    next used found => exact (consults_above place).mpr (ih found)

theorem LosesLastKey.consults {tree : Tree h} (loses : LosesLastKey key tree) : Consults key tree := by
  match h, tree with
  | 0, _ | 1, _ => exact loses.elim
  | 2, ⟨id, row⟩ =>
    obtain ⟨left, child, right, rfl, place, single, size, low, -⟩ := loses
    exact (consults_two place).mpr ⟨merges_of_lowSize low, .inl (by omega)⟩
  | h + 3, ⟨id, row⟩ =>
    obtain ⟨left, child, right, rfl, place, single, size, low, -⟩ := loses
    exact (consults_above place).mpr (consults_of_lowSize low)

/-- A deletion that does not look at the locals ends in the same way whatever they hold. -/
theorem exists_agreed {tree : Tree (h + 2)} (before : Deletable cut key st tree) (enough : h + 2 < fuel)
    (apart : ¬ Consults key tree) :
    ∃ (success : Bool) (final : BTree), ∀ stale,
      Ran (deleteFrom stale fuel tree.pid key) st fun result st' => Calm success result ∧
      final.Agrees st' := by
  induction h generalizing fuel st with
  | zero =>
    obtain ⟨fuel, rfl⟩ : ∃ rest, fuel = rest + 1 := ⟨fuel - 1, by omega⟩
    obtain ⟨id, row⟩ := tree
    obtain ⟨left, child, right, rfl, place⟩ := row.exists_found key
    obtain ⟨final, page, reported⟩ := before.reported place (show 1 < fuel by omega)
    by_cases merges : MergesLeaves key child
    · have neither := fun either => apart ((consults_two place).mpr ⟨merges, either⟩)
      have failed : (report key child).success = false := by
        rw [Bool.eq_false_iff, ne_eq, report_success]
        exact fun both => neither (.inr both.1)
      refine ⟨false, final, fun stale =>
        (reported.alone_run merges (by_contra fun several => neither (.inl several)) stale).imp ?_⟩
      rintro result st' ⟨calm, agrees⟩
      rw [failed, ite_self] at calm
      exact ⟨calm, agrees⟩
    · refine ⟨(report key child).success, final, fun stale =>
        deleteFrom_calm reported.stored reported.here (fun _ _ again agrees => agrees.trans again) ?_⟩
      refine (ran_of_eq (reported.calm merges stale)).mpr ⟨⟨report_internal child, ?_, rfl⟩, .refl final⟩
      rw [(report_lowSize key child).1, lowSize_none merges]
      rfl
  | succ h ih =>
    obtain ⟨fuel, rfl⟩ : ∃ rest, fuel = rest + 1 := ⟨fuel - 1, by omega⟩
    obtain ⟨id, row⟩ := tree
    obtain ⟨left, child, right, rfl, place⟩ := row.exists_found key
    obtain ⟨⟨page, stored, named, shown⟩, -⟩ := holds_focus.mp before.holds
    have agrees : st.Agrees ((st.record (.request id)).record (.read id)) := ⟨rfl, rfl, rfl⟩
    obtain ⟨success, final, runs⟩ :=
      ih ((before.child place).agrees agrees) (show h + 2 < fuel by omega) fun consults =>
      apart ((consults_above place).mpr consults)
    exact ⟨success, final, fun stale => deleteFrom_calm stored (shown.getChildPageId (found_pids place))
      (fun _ _ again agrees => agrees.trans again) (runs stale)⟩

theorem report_size {tree : Tree 1} (holds : tree.Holds st.pages) : (report key tree).currentSize ≤ 4072 := by
  obtain ⟨id, row⟩ := tree
  obtain ⟨left, child, right, rfl, place⟩ := row.exists_found key
  obtain ⟨⟨page, -, -, shown⟩, -⟩ := holds_node.mp holds
  have few := shown.fits
  rw [Row.length_rest_map, Row.length_rest_close, NUM_KEY_SLOTS] at few
  rw [report_node place]
  split
  · simp only [repairReport, settled]
    split
    · exact Nat.zero_le _
    · split
      · exact Nat.zero_le _
      · simp only [SIZEOF_KEY, SIZEOF_PAGE_ID]
        omega
  · exact Nat.zero_le _

theorem stained_underflown {n : Nat} {status : DeleteStatus} (pageType : status.pageType = .internalPage) :
    (status.stained n).underflown = decide
      ((n + status.currentSize) % 65536 ≤ INTERNAL_UNDERFLOW_THRESHOLD) := by
  rw [DeleteStatus.stained, if_pos pageType]

theorem stained_size {n : Nat} {status : DeleteStatus} (pageType : status.pageType = .internalPage) :
    (status.stained n).currentSize = (n + status.currentSize) % 65536 := by
  rw [DeleteStatus.stained, if_pos pageType]

/-- Otherwise there are two contents of the locals that end differently: with the first, no page above
the leaves is repaired; with the second, one is. -/
theorem exists_differing {tree : Tree (h + 2)} (before : Deletable cut key st tree)
    (enough : h + 2 < fuel) (consults : Consults key tree) :
    ∃ (stale stale' : Nat → Nat) (success success' : Bool) (final : BTree), (∀ pid, stale pid < 65536) ∧
      (∀ pid, stale' pid < 65536) ∧
      Ran (deleteFrom stale fuel tree.pid key) st (fun result st' => Calm success result ∧ final.Agrees st') ∧
        Ran (deleteFrom stale' fuel tree.pid key) st fun result st' => Calm success' result ∧
          (success ≠ success' ∨ ∃ pid, st'.pages pid ≠ final.pages pid) := by
  induction h generalizing fuel st with
  | zero =>
    obtain ⟨fuel, rfl⟩ : ∃ rest, fuel = rest + 1 := ⟨fuel - 1, by omega⟩
    obtain ⟨id, row⟩ := tree
    obtain ⟨left, child, right, rfl, place⟩ := row.exists_found key
    obtain ⟨final, page, reported⟩ := before.reported place (show 1 < fuel by omega)
    obtain ⟨merges, different⟩ := (consults_two place).mp consults
    have small : (report key child).currentSize ≤ 4072 := report_size (holds_focus.mp before.holds).2.2.1
    have pageType : (report key child).pageType = .internalPage := report_internal child
    generalize sized : (report key child).currentSize = size at small
    have threshold : INTERNAL_UNDERFLOW_THRESHOLD < 3000 := by decide
    have noted : id ≠ child.pid := fun same => (focused before.nodup).node (same ▸ pid_mem_pids)
    let high : Nat → Nat := fun _ => 40000
    let low : Nat → Nat := fun pid => if pid = child.pid then
      (INTERNAL_UNDERFLOW_THRESHOLD + 65536 - size) % 65536 else 40000
    have exactly : (low child.pid + size) % 65536 = INTERNAL_UNDERFLOW_THRESHOLD := by
      simp only [low, ite_true]
      omega
    have underflown : ((report key child).stained (low child.pid)).underflown = true := by
      rw [stained_underflown pageType, sized, exactly]
      exact decide_eq_true (Nat.le_refl _)
    have word : ∀ pid, low pid < 65536 := by
      intro pid
      simp only [low]
      split
      · exact Nat.mod_lt _ (by decide)
      · decide
    have agreed : Ran (deleteFrom high (fuel + 1) id key) st fun result st' =>
        Calm (report key child).success result ∧ final.Agrees st' := by
      refine deleteFrom_calm reported.stored reported.here (fun _ _ again agrees => agrees.trans again) ?_
      refine (ran_of_eq (reported.merged merges high)).mpr
        ⟨⟨(stained_pageType _ _).trans pageType, ?_, DeleteStatus.stained_success _ _⟩, .refl final⟩
      rw [stained_underflown pageType, sized]
      exact decide_eq_false (by simp only [high]; omega)
    by_cases alone : left.length + right.length = 0
    · have done : (report key child).success = true := by
        refine report_success child |>.mpr ⟨different.resolve_left (absurd alone), fun orphaned => ?_⟩
        obtain ⟨cid, crow⟩ := child
        obtain ⟨left, leaf, right, rfl, place⟩ := crow.exists_found key
        obtain ⟨_, -, several, -⟩ := (mergesLeaves_close place).mp merges
        rcases orphaned with ⟨none, -⟩ | below
        · rw [← Row.length_rest_close left leaf right] at several
          exact several (congrArg List.length none)
        · exact below
      refine ⟨high, low, (report key child).success, false, final, fun _ => by decide, word, agreed, ?_⟩
      refine (reported.alone_run merges alone low).imp ?_
      rintro result st' ⟨calm, -⟩
      rw [if_pos underflown] at calm
      exact ⟨calm, .inl (by rw [done]; decide)⟩
    · refine ⟨high, low, (report key child).success, (report key child).success, final,
        fun _ => by decide, word, agreed, ?_⟩
      obtain ⟨left', child', right', holds, nodup, lefts, rights, same⟩ := reported.holds
      have elsewhere : low id = 40000 := if_neg noted
      refine (deleteFrom_repairs reported.stored reported.here (reported.merged merges low)
        ((stained_pageType _ _).trans pageType)
        underflown).mpr ?_
      rw [elsewhere, ← same]
      refine (repairInternal_moves holds nodup (by omega)
        (by rw [stained_size pageType, same, sized, exactly])).imp ?_
      rintro result st' ⟨calm, moved⟩
      rw [DeleteStatus.stained_success] at calm
      exact ⟨calm, .inr moved⟩
  | succ h ih =>
    obtain ⟨fuel, rfl⟩ : ∃ rest, fuel = rest + 1 := ⟨fuel - 1, by omega⟩
    obtain ⟨id, row⟩ := tree
    obtain ⟨left, child, right, rfl, place⟩ := row.exists_found key
    obtain ⟨⟨page, stored, named, shown⟩, -⟩ := holds_focus.mp before.holds
    have agrees : st.Agrees ((st.record (.request id)).record (.read id)) := ⟨rfl, rfl, rfl⟩
    have here := shown.getChildPageId (found_pids place)
    obtain ⟨stale, stale', success, success', final, word, word', agreed, differs⟩ :=
      ih ((before.child place).agrees agrees) (show h + 2 < fuel by omega)
        ((consults_above place).mp consults)
    refine ⟨stale, stale', success, success', final, word, word',
      deleteFrom_calm stored here (fun _ _ again agrees => agrees.trans again) agreed,
        deleteFrom_calm stored here ?_ differs⟩
    intro middle st' again either
    rw [again.pages]
    exact either

end Consults

end Tree
end Datashil
