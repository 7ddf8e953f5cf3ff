import Datashil.Proofs.DeletePages

/-! `Delete` repairs an internal page that runs low: what it does is a repair of the
tree, and reaches no further than the page, its child and one sibling. -/

namespace Datashil
open Library InternalPage BTree

namespace Tree
variable {h : Nat} {cut : Nat → Nat → Prop} {st st₁ st' : BTree} {id a b key middle : Nat}
  {left : List (Tree (h + 1) × Nat)} {firstRow secondRow firstRow' secondRow' : Row Nat (Tree h)}
  {right : List (Nat × Tree (h + 1))} {below : DeleteStatus}

/-- What two neighbouring nodes have below them stays as it is. -/
private theorem Holds.grandchildren {pages pages' : Nat → Page}
    (holds : Holds (h := h + 2) pages ⟨id, Row.close left ⟨a, firstRow⟩ ((key, ⟨b, secondRow⟩) :: right)⟩)
    (nodup : (pids (h := h + 2) ⟨id, Row.close left ⟨a, firstRow⟩ ((key, ⟨b, secondRow⟩) :: right)⟩).Nodup)
    (frame : ∀ pid, pid ≠ id → pid ≠ a → pid ≠ b → pages' pid = pages pid) :
    ∀ child ∈ (firstRow.join key secondRow).children, Holds pages' child := by
  have apart := paired nodup
  obtain ⟨-, lefts, here, rights⟩ := holds_focus.mp holds
  have second := rights key ⟨b, secondRow⟩ (.head _)
  have inA : a ∈ pids (h := h + 1) ⟨a, firstRow⟩ := by simp
  have inB : b ∈ pids (h := h + 1) ⟨b, secondRow⟩ := by simp
  intro child member
  rcases Row.mem_children_join.mp member with member | member
  · refine ((holds_node.mp here).2 child member).congr fun pid inside => ?_
    have among : pid ∈ pids (h := h + 1) ⟨a, firstRow⟩ := mem_pids_child member inside
    refine frame pid ?_ ?_ ?_
    · rintro rfl
      exact apart.node.1 among
    · rintro rfl
      exact (List.nodup_cons.mp (pids_node ▸ apart.nodup.1)).1
        ((Row.mem_trail _ _).mpr (.inl ⟨child, member, inside⟩))
    · rintro rfl
      exact apart.apart pid among inB
  · refine ((holds_node.mp second).2 child member).congr fun pid inside => ?_
    have among : pid ∈ pids (h := h + 1) ⟨b, secondRow⟩ := mem_pids_child member inside
    refine frame pid ?_ ?_ ?_
    · rintro rfl
      exact apart.node.2 among
    · rintro rfl
      exact apart.apart pid inA among
    · rintro rfl
      exact (List.nodup_cons.mp (pids_node ▸ apart.nodup.2)).1
        ((Row.mem_trail _ _).mpr (.inl ⟨child, member, inside⟩))

theorem Holds.nodes
    (holds : Holds (h := h + 2) st.pages
      ⟨id, Row.close left ⟨a, firstRow⟩ ((key, ⟨b, secondRow⟩) :: right)⟩) :
    (∃ pageA, st.pages a = .internal pageA ∧ pageA.pageId = a ∧ pageA.Shows (firstRow.map pid)) ∧
      ∃ pageB, st.pages b = .internal pageB ∧ pageB.pageId = b ∧ pageB.Shows (secondRow.map pid) := by
  obtain ⟨-, -, here, rights⟩ := holds_focus.mp holds
  exact ⟨(holds_node.mp here).1, (holds_node.mp (rights key ⟨b, secondRow⟩ (.head _))).1⟩

private theorem outside_nodes {other : Nat}
    (outside : other ∉ pids (h := h + 2)
      ⟨id, Row.close left ⟨a, firstRow⟩ ((key, ⟨b, secondRow⟩) :: right)⟩) :
    other ≠ id ∧ other ≠ a ∧ other ≠ b := by
  rw [pids_pair] at outside
  simp only [List.mem_cons, List.mem_append, pids_node, not_or] at outside
  exact ⟨outside.1, outside.2.2.1.1, outside.2.2.2.1.1⟩

private theorem changed_rotation
    (holds : Holds (h := h + 2) st.pages ⟨id, Row.close left ⟨a, firstRow⟩ ((key, ⟨b, secondRow⟩) :: right)⟩)
    (nodup : (pids (h := h + 2) ⟨id, Row.close left ⟨a, firstRow⟩ ((key, ⟨b, secondRow⟩) :: right)⟩).Nodup)
    {page pageA pageB : InternalPage} (named : page.pageId = id ∧ pageA.pageId = a ∧ pageB.pageId = b)
    (shown : page.Shows (Row.close (leftPids left) a ((middle, b) :: rightPids right)))
    (shownA : pageA.Shows (firstRow'.map pid))
    (shownB : pageB.Shows (secondRow'.map pid))
    (joined : firstRow.join key secondRow = firstRow'.join middle secondRow')
    (counter : st'.newPageOffsetIndex = st.newPageOffsetIndex)
    (pages : ∀ other, st'.pages other = if other = b then .internal pageB else if other = a then
      .internal pageA
      else if other = id then .internal page else st.pages other) :
    Changed st st' (h := h + 2) ⟨id, Row.close left ⟨a, firstRow⟩ ((key, ⟨b, secondRow⟩) :: right)⟩
      ⟨id, Row.close left ⟨a, firstRow'⟩ ((middle, ⟨b, secondRow'⟩) :: right)⟩ none := by
  have apart := paired nodup
  have inA : a ∈ pids (h := h + 1) ⟨a, firstRow⟩ := by simp
  have inB : b ∈ pids (h := h + 1) ⟨b, secondRow⟩ := by simp
  have notA : id ≠ a := fun same => apart.node.1 (by rw [same]; exact inA)
  have notB : id ≠ b := fun same => apart.node.2 (by rw [same]; exact inB)
  have different : a ≠ b := fun same => apart.apart a inA (by rw [same]; exact inB)
  have frame : ∀ pid, pid ≠ id → pid ≠ a → pid ≠ b → st'.pages pid = st.pages pid := by
    intro pid own first second
    rw [pages, if_neg second, if_neg first, if_neg own]
  have children := holds.grandchildren nodup frame
  rw [joined] at children
  obtain ⟨⟨_, storedNode, -⟩, -⟩ := holds_focus.mp holds
  obtain ⟨⟨_, storedA, -⟩, _, storedB, -⟩ := holds.nodes
  refine ⟨?_, counter, ?_, fun pid leaf stored => ⟨leaf, ?_⟩⟩
  · rw [mapLeaves_id fun page _ => relink_none page]
    refine Holds.pair holds nodup (by rw [pages, if_neg notB, if_neg notA, if_pos rfl]) named.1 shown
      (holds_node.mpr ⟨⟨pageA, ?_, named.2.1, shownA⟩, ?_⟩) rfl
        (holds_node.mpr ⟨⟨pageB, ?_, named.2.2, shownB⟩, ?_⟩) rfl ?_
    · rw [pages, if_neg different, if_pos rfl]
    · exact fun child member => children child (Row.mem_children_join.mpr (.inl member))
    · rw [pages, if_pos rfl]
    · exact fun child member => children child (Row.mem_children_join.mpr (.inr member))
    · intro pid own outFirst outSecond
      exact frame pid own (fun same => outFirst (same ▸ inA)) fun same => outSecond (same ▸ inB)
  · intro pid away _
    obtain ⟨notNode, notFirst, notSecond⟩ := outside_nodes away
    rw [relinkedPages_none, frame pid notNode notFirst notSecond]
  · rw [frame pid, stored]
    all_goals
      rintro rfl
      simp [storedNode, storedA, storedB] at stored

private theorem changed_merge
    (holds : Holds (h := h + 2) st.pages ⟨id, Row.close left ⟨a, firstRow⟩ ((key, ⟨b, secondRow⟩) :: right)⟩)
    (nodup : (pids (h := h + 2) ⟨id, Row.close left ⟨a, firstRow⟩ ((key, ⟨b, secondRow⟩) :: right)⟩).Nodup)
    {page pageA : InternalPage} (named : page.pageId = id ∧ pageA.pageId = a)
    (shown : page.Shows (Row.close (leftPids left) a (rightPids right)))
    (shownA : pageA.Shows ((firstRow.join key secondRow).map pid))
    (counter : st'.newPageOffsetIndex = st.newPageOffsetIndex)
    (pages : ∀ other, st'.pages other = if other = a then .internal pageA else if other = id then
      .internal page else st.pages other) :
    Changed st st' (h := h + 2) ⟨id, Row.close left ⟨a, firstRow⟩ ((key, ⟨b, secondRow⟩) :: right)⟩
      ⟨id, Row.close left ⟨a, firstRow.join key secondRow⟩ right⟩ none := by
  have apart := paired nodup
  have inA : a ∈ pids (h := h + 1) ⟨a, firstRow⟩ := by simp
  have notA : id ≠ a := fun same => apart.node.1 (by rw [same]; exact inA)
  have frame : ∀ pid, pid ≠ id → pid ≠ a → st'.pages pid = st.pages pid := by
    intro pid own first
    rw [pages, if_neg first, if_neg own]
  have children := holds.grandchildren nodup fun pid own first _ => frame pid own first
  obtain ⟨⟨_, storedNode, -⟩, -⟩ := holds_focus.mp holds
  obtain ⟨⟨_, storedA, -⟩, -⟩ := holds.nodes
  refine ⟨?_, counter, ?_, fun pid leaf stored => ⟨leaf, ?_⟩⟩
  · rw [mapLeaves_id fun page _ => relink_none page]
    refine Holds.merge holds nodup (by rw [pages, if_neg notA, if_pos rfl]) named.1
      (by rw [map_pid_close]; exact shown)
      (erased_close ..) (holds_node.mpr ⟨⟨pageA, ?_, named.2, shownA⟩, children⟩) ?_
    · rw [pages, if_pos rfl]
    · intro pid own outFirst _
      exact frame pid own fun same => outFirst (same ▸ inA)
  · intro pid away _
    obtain ⟨notNode, notFirst, -⟩ := outside_nodes away
    rw [relinkedPages_none, frame pid notNode notFirst]
  · rw [frame pid, stored]
    all_goals
      rintro rfl
      simp [storedNode, storedA] at stored

/-! ### Running a repair -/

/-- A page whose focused child, an internal page, has just underflowed. -/
structure UnderflownNode (st : BTree) (id : Nat) (left : List (Tree (h + 1) × Nat)) (child : Tree (h + 1))
    (right : List (Nat × Tree (h + 1))) (below : DeleteStatus) : Prop where
  holds : Holds (h := h + 2) st.pages ⟨id, Row.close left child right⟩
  nodup : (pids (h := h + 2) ⟨id, Row.close left child right⟩).Nodup
  outside : DATABASE_META_PAGE_ID ∉ pids (h := h + 2) ⟨id, Row.close left child right⟩
  size : below.currentSize = 16 * (Branch.row child).rest.length + 8
  few : (Branch.row child).rest.length ≤ 126
  enoughLeft : ∀ entry ∈ left.head?, 127 ≤ (Branch.row entry.1).rest.length
  enoughRight : ∀ entry ∈ right.head?, 127 ≤ (Branch.row entry.2).rest.length

private theorem UnderflownNode.agrees {child : Tree (h + 1)}
    (before : UnderflownNode st id left child right below)
    (agrees : st.Agrees st₁) : UnderflownNode st₁ id left child right below := by
  refine ⟨?_, before.nodup, before.outside, before.size, before.few, before.enoughLeft, before.enoughRight⟩
  rw [agrees.pages]
  exact before.holds

private theorem lendsFromLeft_node (node : Tree (h + 1)) (size : Nat) :
    lendsFromLeft node size = lendsFromRight node size :=
  rfl

private theorem canLend_shown {page : InternalPage} {row : Row Nat (Tree h)}
    (shown : page.Shows (row.map pid)) (size : Nat) :
    (page.canLend (u16 ((INTERNAL_UNDERFLOW_THRESHOLD + 1) - size))).canBorrow =
      lendsFromRight (h := h + 1) ⟨a, row⟩ size := by
  obtain ⟨pageId, numKeys, words⟩ := page
  obtain rfl : numKeys = row.rest.length := by simpa using shown.numKeys
  rfl

private theorem lent_amount {page : InternalPage} {row : Row Nat (Tree h)}
    (shown : page.Shows (row.map pid)) {keys : Nat}
    (few : keys ≤ 126) (enough : 127 ≤ row.rest.length)
    (lends : lendsFromRight (h := h + 1) ⟨a, row⟩ (16 * keys + 8) = true) :
    page.canLend (u16 ((INTERNAL_UNDERFLOW_THRESHOLD + 1) - (16 * keys + 8 : Nat))) =
      ⟨true, 127 - keys⟩ ∧ 254 ≤ row.rest.length + keys := by
  have numKeys : page.numKeys = row.rest.length := by simpa using shown.numKeys
  have fits : row.rest.length ≤ 254 := by simpa [NUM_KEY_SLOTS] using shown.fits
  have answer := canLend_spec few (by rw [numKeys]; exact enough) (by rw [numKeys]; exact fits)
  have agrees := canLend_shown (a := a) shown (16 * keys + 8)
  rw [lends, answer] at agrees
  rw [answer]
  split at agrees
  next => simp at agrees
  next full =>
    rw [if_neg full]
    exact ⟨rfl, by omega⟩

private theorem refused_room {row : Row Nat (Tree h)} {keys : Nat} (few : keys ≤ 126)
    (enough : 127 ≤ row.rest.length)
    (fits : row.rest.length ≤ 254) (refused : lendsFromRight (h := h + 1) ⟨a, row⟩ (16 * keys + 8) = false) :
    row.rest.length + keys < 254 := by
  rw [lendsFromRight, canLend_spec few enough fits] at refused
  by_contra full
  simp only [if_neg full] at refused
  cases refused

section Borrow
variable {handleBorrow : InternalPage → InternalPage → InternalPage → BorrowQuery →
    InternalPage × InternalPage × InternalPage}
  {childPid siblingPid : Nat} {page child sibling : InternalPage} {otherwise : TreeM DeleteStatus}

theorem borrowInternal_refused (stored : st.pages siblingPid = .internal sibling)
    {post : DeleteStatus → BTree → Prop}
    (refused :
      (sibling.canLend (u16 ((INTERNAL_UNDERFLOW_THRESHOLD + 1) - below.currentSize))).canBorrow =
      false) :
    Ran (borrowInternal handleBorrow id childPid below (.ok siblingPid) otherwise) st post ↔
      Ran otherwise (((st.record (.request siblingPid)).record (.read siblingPid)).record
        (.release siblingPid false)) post := by
  simp only [borrowInternal, ran_bind, ran_requestPage,
    ran_readInternal sibling (show (st.record (.request siblingPid)).pages siblingPid =
    _ by simpa using stored),
    refused, Bool.false_eq_true, ite_false, ran_releasePage]

theorem borrowInternal_agreed (stored : st.pages id = .internal page)
    (siblingStored : st.pages siblingPid = .internal sibling)
    (childStored : st.pages childPid = .internal child)
    (agreed :
      (sibling.canLend (u16 ((INTERNAL_UNDERFLOW_THRESHOLD + 1) - below.currentSize))).canBorrow = true)
    (page' child' sibling' : InternalPage)
    (borrowed : handleBorrow page child sibling
      (sibling.canLend (u16 ((INTERNAL_UNDERFLOW_THRESHOLD + 1) - below.currentSize))) =
      (page', child', sibling')) :
    Ran (borrowInternal handleBorrow id childPid below (.ok siblingPid) otherwise) st fun result st' =>
      result = settled below.success ∧ st'.rootPageId = st.rootPageId ∧
        st'.newPageOffsetIndex = st.newPageOffsetIndex ∧
        ∀ other, st'.pages other = if other = siblingPid then .internal sibling'
          else if other = childPid then .internal child'
          else if other = id then .internal page' else st.pages other := by
  simp only [borrowInternal, ran_bind, ran_requestPage,
    ran_readInternal sibling (show (st.record (.request siblingPid)).pages siblingPid =
      _ by simpa using siblingStored), agreed, ite_true]
  rw [ran_readInternal child (by simpa using childStored), ran_readInternal page (by simpa using stored)]
  simp only [borrowed, ran_writePage]
  rw [ran_releasePage, ran_releasePage, ran_releasePage, ran_pure]
  exact ⟨rfl, by simp, by simp, fun other => rfl⟩

end Borrow

private theorem lendLeft_node
    (before : UnderflownNode st id ((⟨a, firstRow⟩, key) :: left) ⟨b, secondRow⟩ right below)
    (lends : lendsFromRight (h := h + 1) ⟨a, firstRow⟩ below.currentSize = true)
    (otherwise : TreeM DeleteStatus) :
    Ran (borrowInternal handleLeftBorrow id b below (.ok a) otherwise) st
      (Repairs (h := h + 1) cut st id ((⟨a, firstRow⟩, key) :: left) ⟨b, secondRow⟩ right below) := by
  obtain ⟨page, stored, named, shown, fresh, -, apart⟩ := before.holds.page before.nodup
  have different : a ≠ b := apart
  obtain ⟨⟨pageA, storedA, namedA, shownA⟩, pageB, storedB, namedB, shownB⟩ := before.holds.nodes
  obtain ⟨metaNode, metaA, metaB⟩ := outside_nodes before.outside
  have size : below.currentSize = 16 * secondRow.rest.length + 8 := before.size
  have few : secondRow.rest.length ≤ 126 := before.few
  have enough : 127 ≤ firstRow.rest.length := before.enoughLeft _ rfl
  obtain ⟨answer, full⟩ := lent_amount shownA few enough (by rw [← size]; exact lends)
  obtain ⟨kept, middle, lent, rfl, keptCount, lentCount⟩ :=
    firstRow.exists_join (firstRow.rest.length - (127 - secondRow.rest.length))
    (by omega)
  rw [Row.map_join] at shownA
  obtain ⟨page', pageB', pageA', result, shown', shownB', shownA', names⟩ :=
    shown.handleLeftBorrow fresh namedA shownA shownB
    (show _ = 127 - secondRow.rest.length by rw [Row.length_rest_map]; omega)
      (by rw [Row.length_rest_map, NUM_KEY_SLOTS]; omega) true
  rw [← Row.map_join] at shownB'
  refine (borrowInternal_agreed stored storedA storedB (by rw [size, answer]) page' pageB' pageA'
    (by rw [size, answer]; exact result)).imp ?_
  rintro result st' ⟨rfl, root, counter, pages⟩
  refine ⟨⟨id, Row.close left ⟨a, kept⟩ ((middle, ⟨b, lent.join key secondRow⟩) :: right)⟩, none,
    .lendLeft lends ?_ trivial,
    changed_rotation before.holds before.nodup ⟨names.1.trans named, names.2.2.trans namedA,
      names.2.1.trans namedB⟩ shown' shownA' shownB'
      (Row.join_assoc ..) counter ?_, .inl ⟨root, ?_, ?_, ?_⟩⟩
  · refine ⟨rfl, rfl, Row.join_assoc .., ?_, ?_⟩
    · simp only; omega
    · simp only [Row.length_rest_join]; omega
  · intro other
    rw [pages]
    by_cases lender : other = a
    · rw [lender, if_pos rfl, if_neg different, if_pos rfl]
    · rw [if_neg lender, if_neg lender]
  · rw [pages, if_neg metaA, if_neg metaB, if_neg metaNode]
  · simp [siblingLends, lends, repairReport]
  · exact fun tall => absurd tall (by omega)

private theorem lendRight_node
    (before : UnderflownNode st id left ⟨a, firstRow⟩ ((key, ⟨b, secondRow⟩) :: right) below)
    (refused : left.head?.any (fun entry => lendsFromRight entry.1 below.currentSize) = false)
    (lends : lendsFromLeft (h := h + 1) ⟨b, secondRow⟩ below.currentSize = true)
    (otherwise : TreeM DeleteStatus) :
    Ran (borrowInternal handleRightBorrow id a below (.ok b) otherwise) st
      (Repairs (h := h + 1) cut st id left ⟨a, firstRow⟩ ((key, ⟨b, secondRow⟩) :: right) below) := by
  obtain ⟨page, stored, named, shown, fresh, -, different⟩ := before.holds.page before.nodup
  obtain ⟨⟨pageA, storedA, namedA, shownA⟩, pageB, storedB, namedB, shownB⟩ := before.holds.nodes
  obtain ⟨metaNode, metaA, metaB⟩ := outside_nodes before.outside
  have size : below.currentSize = 16 * firstRow.rest.length + 8 := before.size
  have few : firstRow.rest.length ≤ 126 := before.few
  have enough : 127 ≤ secondRow.rest.length := before.enoughRight _ rfl
  obtain ⟨answer, full⟩ := lent_amount (a := b) shownB few enough
    (by rw [← size, ← lendsFromLeft_node]; exact lends)
  obtain ⟨lent, middle, kept, rfl, lentCount, keptCount⟩ :=
    secondRow.exists_join (126 - firstRow.rest.length) (by omega)
  rw [Row.map_join] at shownB
  obtain ⟨page', pageA', pageB', result, shown', shownA', shownB', names⟩ :=
    shown.handleRightBorrow fresh namedA shownB shownA
    (show _ = 127 - firstRow.rest.length by rw [Row.length_rest_map]; omega)
      (by rw [Row.length_rest_map, NUM_KEY_SLOTS]; omega) true
  rw [← Row.map_join] at shownA'
  refine (borrowInternal_agreed stored storedB storedA (by rw [size, answer]) page' pageA' pageB'
    (by rw [size, answer]; exact result)).imp ?_
  rintro result st' ⟨rfl, root, counter, pages⟩
  refine ⟨⟨id, Row.close left ⟨a, firstRow.join key lent⟩ ((middle, ⟨b, kept⟩) :: right)⟩, none,
    .lendRight lends ?_ trivial refused,
    changed_rotation before.holds before.nodup ⟨names.1.trans named, names.2.1.trans namedA,
      names.2.2.trans namedB⟩ shown' shownA' shownB'
      (Row.join_assoc ..).symm counter pages, .inl ⟨root, ?_, ?_, ?_⟩⟩
  · refine ⟨rfl, rfl, (Row.join_assoc ..).symm, ?_, ?_⟩
    · simp only [Row.length_rest_join]; omega
    · simp only [Row.length_rest_join] at full keptCount ⊢; omega
  · rw [pages, if_neg metaB, if_neg metaA, if_neg metaNode]
  · simp [siblingLends, lends, repairReport]
  · exact fun tall => absurd tall (by omega)

private theorem mergeInternal_spec {child : Tree (h + 1)} {left' : List (Tree (h + 1) × Nat)}
    {right' : List (Nat × Tree (h + 1))} (before : UnderflownNode st id left' child right' below)
    (placed : Row.close left' child right' = Row.close left ⟨a, firstRow⟩ ((key, ⟨b, secondRow⟩) :: right))
    (room : firstRow.rest.length + secondRow.rest.length < 254)
    (refused : siblingLends left' right' below.currentSize = false)
    (repaired : Repaired cut below.currentSize id left' child right'
      ⟨id, Row.close left ⟨a, firstRow.join key secondRow⟩ right⟩ none) :
    Ran (mergeInternal 0 id a b below.success) st (Repairs cut st id left' child right' below) := by
  have holds := before.holds
  have nodup := before.nodup
  have outside := before.outside
  rw [placed] at holds nodup outside
  have keys := congrArg (fun row => row.rest.length) placed
  simp only [Row.length_rest_close, List.length_cons] at keys
  obtain ⟨page, stored, named, shown, fresh, -, different⟩ := holds.page nodup
  obtain ⟨⟨pageA, storedA, namedA, shownA⟩, pageB, storedB, namedB, shownB⟩ := holds.nodes
  obtain ⟨metaNode, metaA, metaB⟩ := outside_nodes outside
  obtain ⟨page', erased, shown', named'⟩ := shown.deletePartitionKeyAndChildPtr fresh
  have merged := shownA.mergePages shownB (by simp only [Row.length_rest_map, NUM_KEY_SLOTS]; omega) key
  rw [← Row.map_join] at merged
  have numKeys : page'.numKeys = left.length + right.length := by simpa using shown'.numKeys
  simp only [mergeInternal, ran_bind, ran_requestPage]
  rw [ran_readInternal pageA (by simpa using storedA), ran_readInternal pageB (by simpa using storedB),
    ran_readInternal page (by simpa using stored)]
  simp only [pid_node] at erased
  simp only [erased, ran_writePage, ran_releasePage, ran_pure]
  rw [checkUnderflow_spec (by rw [shown'.numKeys]; exact shown'.fits)]
  refine ⟨_, none, repaired, ?_,
    .inl ⟨by simp only [rootPageId_record, rootPageId_setPage], ?_, ?_, fun tall =>
    absurd tall (by omega)⟩⟩
  · rw [placed]
    refine changed_merge holds nodup ⟨named'.trans named,
      (show (mergePages key pageA pageB).pageId = a from namedA)⟩ shown' merged ?_ fun other => ?_
    · simp only [newPageOffsetIndex_record, newPageOffsetIndex_setPage]
    · simp only [pages_record, pages_setPage]
  · simp only [pages_record, pages_setPage, if_neg metaA, if_neg metaNode]
  · rw [refused, keys]
    simp only [repairReport, numKeys]
    rfl

private theorem rightRepair_node {child : Tree (h + 1)} (before : UnderflownNode st id left child right below)
    (refused : left.head?.any (fun entry => lendsFromRight entry.1 below.currentSize) = false)
    {rightCheck : Except ErrType Nat}
    (found : rightCheck.toOption = right.head?.map fun entry => entry.2.pid) (otherwise : TreeM DeleteStatus)
    (continues : ∀ st₁, st.Agrees st₁ → siblingLends left right below.currentSize = false →
      Ran otherwise st₁ (Repairs cut st₁ id left child right below)) :
    Ran (borrowInternal handleRightBorrow id child.pid below rightCheck otherwise) st
      (Repairs cut st id left child right below) := by
  cases rightCheck with
  | error missing =>
    obtain rfl := eq_nil_of_error found
    exact continues st (.refl st) (by rw [siblingLends, refused]; rfl)
  | ok rightPid =>
    obtain ⟨⟨key, ⟨b, secondRow⟩⟩, right, rfl, same⟩ := eq_cons_of_ok found
    obtain rfl : b = rightPid := same.symm
    obtain ⟨a, firstRow⟩ := child
    obtain ⟨-, pageB, storedB, -, shownB⟩ := before.holds.nodes
    by_cases lends : lendsFromLeft (h := h + 1) ⟨b, secondRow⟩ below.currentSize = true
    · exact lendRight_node before refused lends otherwise
    · have refusedRight := Bool.eq_false_iff.mpr lends
      rw [lendsFromLeft_node] at refusedRight
      refine (borrowInternal_refused storedB ((canLend_shown (a := b) shownB _).trans refusedRight)).mpr ?_
      have agrees : st.Agrees (((st.record (.request b)).record (.read b)).record (.release b false)) :=
        ⟨rfl, rfl, rfl⟩
      refine (continues _ agrees ?_).imp fun result st' => Repairs.of_agrees agrees
      rw [siblingLends, refused, List.head?_cons, Option.any_some, lendsFromLeft_node]
      exact refusedRight

/-- Repairing a page whose internal child has underflowed is a repair of the tree. -/
theorem repairInternal_spec {child : Tree (h + 1)} (before : UnderflownNode st id left child right below) :
    Ran (repairInternal 0 id child.pid below) st (Repairs cut st id left child right below) := by
  obtain ⟨page, stored, siblings⟩ := before.holds.siblings before.nodup
  obtain ⟨leftFound, -⟩ := siblings .leftInternalSiblingDoesNotExist
  obtain ⟨-, rightFound⟩ := siblings .rightInternalSiblingDoesNotExist
  simp only [repairInternal, ran_bind, ran_readInternal _ stored]
  have agrees : st.Agrees (st.record (.read id)) := ⟨rfl, rfl, rfl⟩
  refine Ran.imp ?_ fun result st' => Repairs.of_agrees agrees
  have before := before.agrees agrees
  rw [getInternalLeftSibling, getInternalRightSibling]
  generalize page.leftSibling child.pid _ = leftCheck at leftFound ⊢
  generalize page.rightSibling child.pid _ = rightCheck at rightFound ⊢
  cases leftCheck with
  | error missing =>
    obtain rfl := eq_nil_of_error leftFound
    refine rightRepair_node before rfl rightFound _ ?_
    intro st₁ agrees refused
    have before := before.agrees agrees
    cases rightCheck with
    | error missing =>
      obtain rfl := eq_nil_of_error rightFound
      simp only [fallThrough, ran_bind, ran_releasePage, ran_pure]
      refine ⟨_, none, .orphan, ⟨?_, rfl, fun _ _ _ => rfl, fun _ page stored => ⟨page, stored⟩⟩,
        .inl ⟨rfl, rfl, rfl, fun _ _ none => none⟩⟩
      rw [mapLeaves_id fun page _ => relink_none page]
      exact before.holds
    | ok rightPid =>
      obtain ⟨⟨key, ⟨b, secondRow⟩⟩, right, rfl, same⟩ := eq_cons_of_ok rightFound
      obtain rfl : b = rightPid := same.symm
      obtain ⟨a, firstRow⟩ := child
      refine mergeInternal_spec before rfl ?_ refused (.mergeRight refused rfl trivial (erased_close ..))
      have both := refused
      rw [siblingLends, Bool.or_eq_false_iff, List.head?_cons, Option.any_some, before.size,
        lendsFromLeft_node] at both
      obtain ⟨-, pageB, -, -, shownB⟩ := before.holds.nodes
      have := refused_room (a := b) before.few (before.enoughRight _ rfl)
        (by simpa [NUM_KEY_SLOTS] using shownB.fits) both.2
      simp only at this
      omega
  | ok leftPid =>
    obtain ⟨⟨⟨a, firstRow⟩, key⟩, left, rfl, same⟩ := eq_cons_of_ok leftFound
    obtain rfl : a = leftPid := same.symm
    obtain ⟨b, secondRow⟩ := child
    by_cases lends : lendsFromRight (h := h + 1) ⟨a, firstRow⟩ below.currentSize = true
    · exact lendLeft_node before lends _
    · have refusedLeft := Bool.eq_false_iff.mpr lends
      obtain ⟨⟨pageA, storedA, -, shownA⟩, -⟩ := before.holds.nodes
      refine (borrowInternal_refused storedA ((canLend_shown (a := a) shownA _).trans refusedLeft)).mpr ?_
      have again : (st.record (.read id)).Agrees
        ((((st.record (.read id)).record (.request a)).record (.read a)).record
        (.release a false)) := ⟨rfl, rfl, rfl⟩
      refine Ran.imp ?_ fun result st' => Repairs.of_agrees again
      refine rightRepair_node (before.agrees again) ?_ rightFound _ ?_
      · rw [List.head?_cons, Option.any_some]
        exact refusedLeft
      · intro st₁ agrees refused
        refine mergeInternal_spec ((before.agrees again).agrees agrees) rfl ?_ refused
          (.mergeLeft refused rfl trivial (erased_close ..))
        rw [before.size] at refusedLeft
        exact refused_room (a := a) before.few (before.enoughLeft _ rfl)
          (by simpa [NUM_KEY_SLOTS] using shownA.fits) refusedLeft

end Tree
end Datashil
