import Datashil.Proofs.DeleteOccupation
import Datashil.Proofs.Represents
import Datashil.Proofs.RepairInternal
import Datashil.Proofs.RepairLeaf
import Datashil.Proofs.Underflow

/-! `Delete` on the tree a store holds: it is a deletion of the tree, and a root
that is left with a single leaf gives way to it. -/

namespace Datashil
open Library LeafPage BTree

namespace Tree
variable {h : Nat} {tree tree' : Tree h} {cut : Nat → Nat → Prop} {key size low high : Nat}
    {fix : Option (Nat × Nat)}

/-! ### Repairs above the leaves do not look at leaves -/

section Above
variable {f : LeafPage → LeafPage} (named : ∀ page, (f page).pageId = page.pageId)

def mapLeft (f : LeafPage → LeafPage) (left : List (Tree h × Nat)) : List (Tree h × Nat) :=
  left.map fun entry => (entry.1.mapLeaves f, entry.2)

def mapRight (f : LeafPage → LeafPage) (right : List (Nat × Tree h)) : List (Nat × Tree h) :=
  right.map fun entry => (entry.1, entry.2.mapLeaves f)

theorem mapLeaves_focus {id : Nat} {left : List (Tree h × Nat)} {child : Tree h}
    {right : List (Nat × Tree h)} :
    mapLeaves (h := h + 1) f ⟨id, Row.close left child right⟩ =
      Branch.mk id (Row.close (mapLeft f left) (child.mapLeaves f) (mapRight f right)) := by
  rw [mapLeaves_node, Row.map_close]
  rfl

@[simp] theorem lendsFromRight_mapLeaves (node : Tree (h + 1)) (size : Nat) :
    lendsFromRight (node.mapLeaves f) size = lendsFromRight node size := by
  obtain ⟨id, row⟩ := node
  simp only [lendsFromRight, mapLeaves_node, Row.length_rest_map]

@[simp] theorem lendsFromLeft_mapLeaves (node : Tree (h + 1)) (size : Nat) :
    lendsFromLeft (node.mapLeaves f) size = lendsFromLeft node size := lendsFromRight_mapLeaves node size

theorem siblingLends_map (left : List (Tree (h + 1) × Nat)) (right : List (Nat × Tree (h + 1))) (size : Nat) :
    siblingLends (mapLeft f left) (mapRight f right) size = siblingLends left right size := by
  cases left <;> cases right <;> simp [siblingLends, mapLeft, mapRight]

theorem Rotated.of_mapLeaves {first second : Tree (h + 1)} {first' second' : Tree (h + 1)} {middle : Nat}
    (rotated : Rotated cut (first.mapLeaves f) key (second.mapLeaves f) first' middle second') :
    ∃ first₀ second₀, Rotated cut first key second first₀ middle second₀ ∧ first₀.mapLeaves f = first' ∧
      second₀.mapLeaves f = second' := by
  obtain ⟨a, firstRow⟩ := first
  obtain ⟨b, secondRow⟩ := second
  obtain ⟨a', firstRow'⟩ := first'
  obtain ⟨b', secondRow'⟩ := second'
  obtain ⟨rfl, rfl, joined, firstCount, secondCount⟩ := rotated
  simp only [mapLeaves_node, ← Row.map_join] at joined
  obtain ⟨firstRow₀, secondRow₀, before, rfl, rfl⟩ := Row.exists_join_of_map joined
  refine ⟨⟨a', firstRow₀⟩, ⟨b', secondRow₀⟩, ⟨rfl, rfl, before, ?_, ?_⟩, rfl, rfl⟩
  · simpa using firstCount
  · simpa using secondCount

theorem Merged.of_mapLeaves {first second merged : Tree (h + 1)}
    (joined : Merged (first.mapLeaves f) key (second.mapLeaves f) merged) :
    ∃ merged₀, Merged first key second merged₀ ∧ merged₀.mapLeaves f = merged := by
  obtain ⟨a, firstRow⟩ := first
  obtain ⟨b, secondRow⟩ := second
  subst joined
  exact ⟨_, rfl, by simp⟩

/-- A repair of changed leaves is a repair of those before the change. -/
theorem Repaired.of_mapLeaves {id : Nat} {left : List (Tree (h + 1) × Nat)} {child : Tree (h + 1)}
    {right : List (Nat × Tree (h + 1))}
    {node' : Branch (Tree (h + 1))}
    (repaired : Repaired cut size id (mapLeft f left) (child.mapLeaves f)
      (mapRight f right) node' fix) :
    ∃ node₀, Repaired cut size id left child right node₀ fix ∧ mapLeaves (h := h + 2) f node₀ = node' ∧
      fix = none := by
  generalize lefts : mapLeft f left = left' at repaired
  generalize inner : child.mapLeaves f = child' at repaired
  generalize rights : mapRight f right = right' at repaired
  cases repaired with
  | lendLeft lends rotated =>
    obtain ⟨⟨sibling, key⟩, left, rfl, same, rfl⟩ := List.map_eq_cons_iff.mp lefts
    subst inner rights
    cases same
    obtain ⟨first, second, before, rfl, rfl⟩ := rotated.of_mapLeaves
    exact ⟨_, .lendLeft (by simpa using lends) before trivial, mapLeaves_focus, rfl⟩
  | lendRight lends rotated lent refused =>
    obtain ⟨⟨key, sibling⟩, right, rfl, same, rfl⟩ := List.map_eq_cons_iff.mp rights
    subst inner lefts
    cases same
    obtain ⟨first, second, before, rfl, rfl⟩ := rotated.of_mapLeaves
    have refused : left.head?.any (fun entry => lendsFromRight entry.1 size) = false := by
      cases left with
      | nil => rfl
      | cons entry left => simpa [mapLeft] using refused
    exact ⟨_, .lendRight (by simpa using lends) before trivial refused, mapLeaves_focus, rfl⟩
  | mergeLeft refused joined pages erased =>
    obtain ⟨⟨sibling, key⟩, left, rfl, same, rfl⟩ := List.map_eq_cons_iff.mp lefts
    subst inner rights
    cases same
    obtain ⟨merged, before, rfl⟩ := joined.of_mapLeaves
    obtain rfl := erased.2 (.inl (Nat.zero_lt_succ h))
    have repaired : Repaired cut size id ((sibling, key) :: left) child right
        ⟨id, Row.close left merged right⟩ (link merged) :=
      .mergeLeft (by rw [← siblingLends_map]; exact refused) before trivial (erased_close ..)
    exact ⟨_, repaired, mapLeaves_focus, rfl⟩
  | mergeRight refused joined pages erased =>
    obtain ⟨⟨key, sibling⟩, right, rfl, same, rfl⟩ := List.map_eq_cons_iff.mp rights
    obtain rfl : left = [] := List.map_eq_nil_iff.mp lefts
    subst inner
    cases same
    obtain ⟨merged, before, rfl⟩ := joined.of_mapLeaves
    obtain rfl := erased.2 (.inl (Nat.zero_lt_succ h))
    have repaired : Repaired cut size id [] child ((key, sibling) :: right)
        ⟨id, Row.close [] merged right⟩ (link merged) :=
      .mergeRight (by rw [← siblingLends_map]; exact refused) before trivial (erased_close ..)
    exact ⟨_, repaired, mapLeaves_focus, rfl⟩
  | orphan =>
    obtain rfl : left = [] := List.map_eq_nil_iff.mp lefts
    obtain rfl : right = [] := List.map_eq_nil_iff.mp rights
    subst inner
    exact ⟨_, .orphan, mapLeaves_focus, rfl⟩

end Above

/-! ### Running a deletion -/

/-- The borrow that repairs a leaf, if one does, leaves no key on both sides of the cut. -/
def CleanRepair (cut : Nat → Nat → Prop) (left : List (Tree 0 × Nat)) (child : LeafPage)
    (right : List (Nat × Tree 0)) : Prop :=
  (∀ entry ∈ left.head?, CleanLeftBorrow cut entry.1 child) ∧
    (left.head?.any (fun entry => lendsFromRight entry.1 child.used) = false → ∀ entry ∈ right.head?,
      CleanRightBorrow cut child entry.2)

/-- What has to be known of the leaves around a key before it may be deleted. -/
def CleanDelete (cut : Nat → Nat → Prop) (key : Nat) : {h : Nat} → Tree h → Prop
  | 0, _ => True
  | 1, node => ∀ left child right, Branch.row node = Row.close left child right → Row.Found left key right →
      (LeafPage.deleteTuple child key).1.used ≤ LEAF_UNDERFLOW_THRESHOLD →
        CleanRepair cut left (LeafPage.deleteTuple child key).1 right
  | _ + 2, node =>
    ∀ left child right, Branch.row node = Row.close left child right → Row.Found left key right →
      CleanDelete cut key child

structure Deletable (cut : Nat → Nat → Prop) (key : Nat) (st : BTree) (tree : Tree h) : Prop where
  holds : tree.Holds st.pages
  nodup : tree.pids.Nodup
  outside : DATABASE_META_PAGE_ID ∉ tree.pids
  metaPage : st.pages DATABASE_META_PAGE_ID = .databaseMeta DATABASE_MAGIC_NUMBER st.rootPageId
  below : st.rootPageId ∉ tree.pids.tail
  valid : ∀ leaf ∈ tree.leaves, leaf.Valid
  known : ∀ leaf ∈ tree.leaves, leaf.rightPid = 0 ∨ ∃ page, st.pages leaf.rightPid = .leaf page
  rooted : tree.Rooted
  clean : CleanDelete cut key tree

def Deletes (cut : Nat → Nat → Prop) (key : Nat) (st : BTree) (tree : Tree h) (result : DeleteStatus)
    (st' : BTree) : Prop :=
  ∃ tree' fix, Deleted cut key tree tree' fix ∧ Changed st st' tree tree' fix ∧
    Ending st st' tree tree' (report key tree) result

theorem Deletes.of_agrees {st st₁ st' : BTree} {result : DeleteStatus} (agrees : st.Agrees st₁)
    (deletes : Deletes cut key st₁ tree result st') : Deletes cut key st tree result st' := by
  obtain ⟨tree', fix, deleted, ⟨holds, counter, frame, leaves⟩, ending⟩ := deletes
  rw [agrees.pages] at frame leaves
  rw [Ending, agrees.root, agrees.pages] at ending
  exact ⟨tree', fix, deleted, ⟨holds, counter.trans agrees.counter, frame, leaves⟩, ending⟩

theorem Deletable.agrees {st st₁ : BTree} (before : Deletable cut key st tree) (agrees : st.Agrees st₁) :
    Deletable cut key st₁ tree := by
  obtain ⟨holds, nodup, outside, metaPage, below, valid, known, rooted, clean⟩ := before
  refine ⟨agrees.pages ▸ holds, nodup, outside, ?_, agrees.root ▸ below, valid, agrees.pages ▸ known,
    rooted, clean⟩
  rw [agrees.pages, agrees.root]
  exact metaPage

theorem Deletable.child {st : BTree} {id : Nat} {left : List (Tree h × Nat)} {child : Tree h}
    {right : List (Nat × Tree h)}
    (before : Deletable (h := h + 1) cut key st ⟨id, Row.close left child right⟩)
    (place : Row.Found left key right) :
    Deletable cut key st child := by
  obtain ⟨holds, nodup, outside, metaPage, below, valid, known, rooted, clean⟩ := before
  have upward : ∀ leaf ∈ child.leaves, leaf ∈ Tree.leaves (h := h + 1) ⟨id, Row.close left child right⟩ :=
    fun leaf member => mem_leaves_node.mpr ⟨child, by simp, member⟩
  have inTail : ∀ pid ∈ child.pids, pid ∈ (pids (h := h + 1) ⟨id, Row.close left child right⟩).tail := by
    intro pid inside
    rw [pids_focus, List.tail_cons]
    simp [inside]
  refine ⟨(holds_focus.mp holds).2.2.1, (focused nodup).nodup, fun inside =>
    outside (List.mem_of_mem_tail (inTail _ inside)), metaPage,
    fun inside => below (inTail _ (List.mem_of_mem_tail inside)), fun leaf member =>
      valid leaf (upward leaf member),
    fun leaf member => known leaf (upward leaf member), ?_, ?_⟩
  · rcases rooted_node.mp rooted with ⟨single, headRooted⟩ | ⟨several, children⟩
    · obtain ⟨rfl, rfl⟩ : left = [] ∧ right = [] := by
        have := congrArg List.length single
        simpa using this
      exact headRooted
    · exact (children child (by simp)).rooted
  · cases h with
    | zero => trivial
    | succ h => exact clean left child right rfl place

theorem pids_replaced {id : Nat} {left : List (Tree h × Nat)} {child child' : Tree h}
    {right : List (Nat × Tree h)} {gone : List Nat}
    (perm : (child'.pids ++ gone).Perm child.pids) :
    (pids (h := h + 1) ⟨id, Row.close left child' right⟩ ++ gone).Perm
      (pids (h := h + 1) ⟨id, Row.close left child right⟩) := by
  simp only [pids_focus, List.perm_iff_count, List.count_append, List.count_cons] at perm ⊢
  intro pid
  have := perm pid
  omega

theorem deleteFrom_leaf {st : BTree} {page : LeafPage} (fuel : Nat) (stale : Nat → Nat)
    (before : Deletable (h := 0) cut key st page) :
    Ran (deleteFrom stale (fuel + 1) page.pageId key) st (Deletes (h := 0) cut key st page) := by
  have stored : st.pages page.pageId = .leaf page := before.holds
  have valid : page.Valid := before.valid page (by simp)
  have outside : DATABASE_META_PAGE_ID ≠ page.pageId := by simpa using before.outside
  have after := tuples_deleteTuple valid key
  have unchanged : (page.deleteTuple key).2 = false → (page.deleteTuple key).1 = page := by
    rcases deleteTuple_spec valid key with ⟨-, same⟩ | ⟨_, _, _, _, -, same, -⟩ <;> simp [same]
  have used : u16 (PAGE_SIZE - LEAF_PAGE_HEADER_SIZE -
      u16 ((page.deleteTuple key).1.checkAvailableSpace + (page.deleteTuple key).1.checkGarbageBytes)) =
        (page.deleteTuple key).1.used := by
    have total := after.1.totalSpace
    rw [after.1.totalSpace_u16]
    simp only [LEAF_PAGE_HEADER_SIZE, PAGE_SIZE] at total ⊢
    exact u16_eq (by omega) (by omega)
  simp only [deleteFrom, ran_bind, ran_requestPage, ran_readPage, pages_record, stored, used]
  have written : Ran (if (page.deleteTuple key).2 then
    writePage page.pageId (.leaf (page.deleteTuple key).1) else pure ())
      ((st.record (.request page.pageId)).record (.read page.pageId)) fun _ st₁ =>
        st₁.rootPageId = st.rootPageId ∧
        st₁.newPageOffsetIndex = st.newPageOffsetIndex ∧
        ∀ pid, st₁.pages pid = if pid = page.pageId then .leaf (page.deleteTuple key).1
          else st.pages pid := by
    split
    · exact ran_writePage.mpr ⟨rfl, rfl, fun _ => rfl⟩
    next clean =>
      refine ran_pure.mpr ⟨rfl, rfl, fun pid => ?_⟩
      rw [unchanged (by simpa using clean)]
      split
      next here => rw [here]; exact stored
      next => rfl
  rw [ran_when]
  refine written.imp ?_
  rintro - st₁ ⟨root, counter, pages⟩
  simp only [ran_bind, ran_releasePage, ran_pure]
  refine ⟨(page.deleteTuple key).1, none, ⟨rfl, rfl⟩, ⟨?_, counter, ?_, ?_⟩,
    .inl ⟨root, ?_, rfl, fun low => absurd low (by decide)⟩⟩
  · rw [mapLeaves_leaf, relink_none, holds_leaf, pages_record, pages, if_pos after.2.1]
  · intro pid away _
    rw [pages_record, pages, if_neg (by simpa using away), relinkedPages_none]
  · intro pid other found
    rw [pages_record, pages]
    split
    · exact ⟨_, rfl⟩
    · exact ⟨other, found⟩
  · rw [pages_record, pages, if_neg outside]

private theorem known_kept {st st₁ : BTree} {id : Nat} {left : List (Tree 0 × Nat)} {child : LeafPage}
    {right : List (Nat × Tree 0)}
    (before : Deletable (h := 1) cut key st ⟨id, Row.close left child right⟩) {fix : Option (Nat × Nat)}
    {child' : LeafPage}
    (deleted : Deleted (h := 0) cut key child child' fix)
    (changed : Changed (h := 0) st st₁ child child' fix) :
    ∀ leaf ∈ Tree.leaves (h := 1) ⟨id, Row.close left child' right⟩,
      leaf.Valid ∧ (leaf.rightPid = 0 ∨ ∃ page, st₁.pages leaf.rightPid = .leaf page) := by
  obtain ⟨rfl, rfl⟩ := deleted_leaf.mp deleted
  have childMem : child ∈ Tree.leaves (h := 1) ⟨id, Row.close left child right⟩ :=
    mem_leaves_node.mpr ⟨child, by simp, by simp⟩
  have after := tuples_deleteTuple (before.valid child childMem) key
  intro leaf member
  obtain ⟨other, inside, found⟩ := mem_leaves_node.mp member
  obtain rfl : leaf = other := by simpa using found
  have old : ∀ other ∈ (Row.close left child right).children, ∀ leaf : LeafPage, leaf = other →
      leaf.Valid ∧ (leaf.rightPid = 0 ∨ ∃ page, st₁.pages leaf.rightPid = .leaf page) := by
    rintro other member leaf rfl
    have among : leaf ∈ Tree.leaves (h := 1) ⟨id, Row.close left child right⟩ :=
      mem_leaves_node.mpr ⟨leaf, member, by simp⟩
    refine ⟨before.valid leaf among, (before.known leaf among).imp_right ?_⟩
    rintro ⟨page, stored⟩
    exact changed.leaves _ page stored
  rcases Row.mem_children_close.mp inside with ⟨next, found⟩ | rfl | ⟨next, found⟩
  · exact old leaf (Row.mem_children_close.mpr (.inl ⟨next, found⟩)) leaf rfl
  · obtain ⟨-, right⟩ := old child (by simp) child rfl
    exact ⟨after.1, by rw [after.2.2.2.1]; exact right⟩
  · exact old leaf (Row.mem_children_close.mpr (.inr (.inr ⟨next, found⟩))) leaf rfl

section Node
variable {st st₁ : BTree} {id : Nat} {left : List (Tree h × Nat)} {child child' : Tree h}
    {right : List (Nat × Tree h)}
  {below : Option (Nat × Nat)}

theorem Deletable.holds_replaced (before : Deletable (h := h + 1) cut key st ⟨id, Row.close left child right⟩)
    (changed : Changed st st₁ child child' below) (samePid : child'.pid = child.pid) :
    Holds (h := h + 1) st₁.pages
      (mapLeaves (h := h + 1) (relink below) ⟨id, Row.close left child' right⟩) := by
  have apart := focused before.nodup
  have outside := before.outside
  rw [pids_focus] at outside
  simp only [List.mem_cons, List.mem_append, not_or] at outside
  obtain ⟨⟨page, stored, named, shown⟩, lefts, -, rights⟩ := holds_focus.mp before.holds
  have siblings : ∀ sibling : Tree h,
    (∀ pid ∈ sibling.pids, pid ∉ child.pids ∧ pid ≠ DATABASE_META_PAGE_ID) → Holds st.pages sibling →
      Holds st₁.pages (sibling.mapLeaves (relink below)) := by
    intro sibling away holds
    exact holds.relinked fun pid inside => changed.frame pid (away pid inside).1 (away pid inside).2
  rw [mapLeaves_focus]
  refine holds_focus.mpr ⟨⟨page, ?_, named, ?_⟩, ?_, changed.holds, ?_⟩
  · rw [changed.frame id apart.node (Ne.symm outside.1)]
    exact relinkedPages_internal stored
  · simpa [mapLeft, mapRight, leftPids, rightPids, Function.comp_def, samePid] using shown
  · intro sibling key member
    obtain ⟨⟨sibling, key⟩, among, same⟩ := List.mem_map.mp member
    cases same
    refine siblings sibling (fun pid inside => ⟨((apart.left sibling key among).2 pid inside).2, ?_⟩)
      (lefts sibling key among)
    rintro rfl
    exact outside.2.1 (mem_pids_left among inside)
  · intro key sibling member
    obtain ⟨⟨key, sibling⟩, among, same⟩ := List.mem_map.mp member
    cases same
    refine siblings sibling (fun pid inside => ⟨((apart.right key sibling among).2 pid inside).2, ?_⟩)
      (rights key sibling among)
    rintro rfl
    exact outside.2.2.2 (mem_pids_right among inside)

private theorem mem_replaced {other : Nat}
    (outside : other ∉ pids (h := h + 1) ⟨id, Row.close left child right⟩) : other ∉ child.pids :=
  fun inside => outside (mem_pids_child (by simp) inside)

private theorem deletes_calm {st' : BTree}
    (before : Deletable (h := h + 1) cut key st ⟨id, Row.close left child right⟩)
    (place : Row.Found left key right) (deleted : Deleted cut key child child' below)
    (changed : Changed st st₁ child child' below)
    (root : st₁.rootPageId = st.rootPageId)
    (metaPage : st₁.pages DATABASE_META_PAGE_ID = st.pages DATABASE_META_PAGE_ID)
    (agrees : st₁.Agrees st') (calm : (report key child).underflown = false) :
    Deletes (h := h + 1) cut key st ⟨id, Row.close left child right⟩
      (settled (report key child).success) st' := by
  have samePid : child'.pid = child.pid :=
    deleted.pid fun leaf member => before.valid leaf (mem_leaves_node.mpr ⟨child, by simp, member⟩)
  refine ⟨Branch.mk id (Row.close left child' right), below, ?_,
    ⟨?_, agrees.counter.trans changed.counter, ?_, agrees.pages ▸ changed.leaves⟩,
    .inl ⟨agrees.root.trans root, ?_, ?_, ?_⟩⟩
  · exact deleted_node.mpr ⟨left, child, right, child', below, none, rfl, place, deleted, rfl, by simp [calm]⟩
  · rw [agrees.pages]
    exact before.holds_replaced changed samePid
  · intro pid away notMeta
    rw [agrees.pages]
    exact changed.frame pid (mem_replaced away) notMeta
  · rw [agrees.pages, metaPage]
  · rw [report_node place, calm]
    rfl
  · intro _ _ single
    rw [onlyChild_eq_none] at single ⊢
    simpa [← List.length_eq_zero_iff] using single

end Node

section Leaf
variable {st st₁ : BTree} {id : Nat} {left : List (Tree 0 × Nat)} {child child' : LeafPage}
    {right : List (Nat × Tree 0)}

theorem Deletable.underflownLeaf (before : Deletable (h := 1) cut key st ⟨id, Row.close left child right⟩)
    (place : Row.Found left key right) {below : Option (Nat × Nat)}
    (deleted : Deleted (h := 0) cut key child child' below)
    (changed : Changed (h := 0) st st₁ child child' below) (root : st₁.rootPageId = st.rootPageId)
    (metaPage : st₁.pages DATABASE_META_PAGE_ID = st.pages DATABASE_META_PAGE_ID)
    (underflown : (report (h := 0) key child).underflown = true) :
    child'.pageId = child.pageId ∧ UnderflownLeaf cut st₁ id left child' right
      (report (h := 0) key child) := by
  have leaves := known_kept before deleted changed
  obtain ⟨rfl, rfl⟩ := deleted_leaf.mp deleted
  have childValid : child.Valid := before.valid child (mem_leaves_node.mpr ⟨child, by simp, by simp⟩)
  have samePid := (tuples_deleteTuple childValid key).2.1
  have holds := before.holds_replaced (h := 0) changed samePid
  rw [mapLeaves_id fun page _ => relink_none page] at holds
  have pids : pids (h := 1) ⟨id, Row.close left (child.deleteTuple key).1 right⟩ =
      pids (h := 1) ⟨id, Row.close left child right⟩ := by
    rw [pids_focus, pids_focus, pids_leaf, pids_leaf, samePid]
  have low : (child.deleteTuple key).1.used ≤ LEAF_UNDERFLOW_THRESHOLD := of_decide_eq_true underflown
  have clean := before.clean left child right rfl place low
  refine ⟨samePid, holds, pids ▸ before.nodup, pids ▸ before.outside, ?_, fun leaf member =>
    (leaves leaf member).1,
    fun leaf member => (leaves leaf member).2, rfl, low, clean.1, clean.2⟩
  rw [metaPage, root]
  exact before.metaPage

private theorem deletes_leaf (before : Deletable (h := 1) cut key st ⟨id, Row.close left child right⟩)
    (place : Row.Found left key right) {below : Option (Nat × Nat)}
    (deleted : Deleted (h := 0) cut key child child' below)
    (changed : Changed (h := 0) st st₁ child child' below) (root : st₁.rootPageId = st.rootPageId)
    (metaPage : st₁.pages DATABASE_META_PAGE_ID = st.pages DATABASE_META_PAGE_ID)
    (underflown : (report (h := 0) key child).underflown = true) :
    Ran (repairLeaf 0 id child.pageId (report (h := 0) key child)) st₁
      (Deletes (h := 1) cut key st ⟨id, Row.close left child right⟩) := by
  obtain ⟨samePid, below⟩ := before.underflownLeaf place deleted changed root metaPage underflown
  obtain ⟨rfl, rfl⟩ := deleted_leaf.mp deleted
  have pids : pids (h := 1) ⟨id, Row.close left (child.deleteTuple key).1 right⟩ =
      pids (h := 1) ⟨id, Row.close left child right⟩ := by
    rw [pids_focus, pids_focus, pids_leaf, pids_leaf, samePid]
  rw [← samePid]
  refine (repairLeaf_spec below).imp ?_
  rintro result st' ⟨node', here, repaired, again, ending⟩
  refine ⟨node', here, ?_, ⟨again.holds, again.counter.trans changed.counter, ?_,
    changed.leaves.trans again.leaves⟩, ?_⟩
  · refine deleted_node.mpr ⟨left, child, right, _, none, here, rfl, place, deleted, by simp, ?_⟩
    rw [if_pos underflown]
    exact repaired
  · intro pid away notMeta
    rw [again.frame pid (pids ▸ away) notMeta]
    exact relinkedPages_congr (changed.frame pid (mem_replaced away) notMeta)
  · rw [report_node place, if_pos underflown]
    have single : ∀ child : LeafPage, onlyChild (h := 1) ⟨id, Row.close left child right⟩ = none ↔
        left.length + right.length ≠ 0 := by
      intro child
      rw [onlyChild_eq_none, ← Row.length_rest_close left child right, ne_eq, ← List.length_eq_zero_iff]
    rcases ending with ⟨sameRoot, sameMeta, same, stays⟩ | ⟨low, isRoot, only, newMeta, same⟩
    · refine .inl ⟨sameRoot.trans root, sameMeta.trans metaPage, same, fun low isRoot several => ?_⟩
      exact stays low (root.trans isRoot) ((single _).mpr ((single _).mp several))
    · exact .inr ⟨low, root ▸ isRoot, only, newMeta, same⟩

end Leaf

section Internal
variable {st st₁ : BTree} {id : Nat} {left : List (Tree (h + 1) × Nat)} {child child' : Tree (h + 1)}
    {right : List (Nat × Tree (h + 1))}
  {below : Option (Nat × Nat)}

private theorem deletes_internal (before : Deletable (h := h + 2) cut key st ⟨id, Row.close left child right⟩)
    (place : Row.Found left key right) (deleted : Deleted cut key child child' below)
    (changed : Changed st st₁ child child' below) (root : st₁.rootPageId = st.rootPageId)
    (metaPage : st₁.pages DATABASE_META_PAGE_ID = st.pages DATABASE_META_PAGE_ID)
    (underflown : (report key child).underflown = true) :
    Ran (repairInternal 0 id child.pid (report key child)) st₁
      (Deletes (h := h + 2) cut key st ⟨id, Row.close left child right⟩) := by
  have childValid : ∀ leaf ∈ child.leaves, leaf.Valid := fun leaf member =>
    before.valid leaf (mem_leaves_node.mpr ⟨child, by simp, member⟩)
  have samePid := deleted.pid childValid
  have holds := before.holds_replaced changed samePid
  obtain ⟨gone, perm⟩ := deleted.pids childValid
  have fewer : (pids (h := h + 2) ⟨id, Row.close left child' right⟩ ++ gone).Perm
      (pids (h := h + 2) ⟨id, Row.close left child right⟩) :=
    pids_replaced perm
  have pids : pids (h := h + 2) (mapLeaves (h := h + 2) (relink below) ⟨id, Row.close left child' right⟩) =
      pids (h := h + 2) ⟨id, Row.close left child' right⟩ := pids_mapLeaves (pageId_relink below)
  have inside : ∀ pid, pid ∈ Tree.pids (h := h + 2) ⟨id, Row.close left child' right⟩ →
      pid ∈ Tree.pids (h := h + 2) ⟨id, Row.close left child right⟩ :=
    fun pid member => fewer.mem_iff.mp (List.mem_append_left _ member)
  have nodup := (List.nodup_append.mp (fewer.nodup_iff.mpr before.nodup)).1
  obtain ⟨size, few⟩ := deleted.underflown underflown
  -- Next to a sibling, every child is full.
  have siblings : (∀ entry ∈ left.head?, Full entry.1) ∧ ∀ entry ∈ right.head?, Full entry.2 := by
    rcases rooted_node.mp before.rooted with ⟨single, -⟩ | ⟨-, children⟩
    · obtain ⟨rfl, rfl⟩ : left = [] ∧ right = [] := by
        have := congrArg List.length single
        simpa using this
      simp
    · obtain ⟨lefts, -, rights⟩ := siblings_of_children children
      exact ⟨fun entry member => lefts entry.1 entry.2 (List.mem_of_mem_head? member),
        fun entry member => rights entry.1 entry.2 (List.mem_of_mem_head? member)⟩
  rw [mapLeaves_focus] at holds pids
  have below₁ : UnderflownNode st₁ id (mapLeft (relink below) left) (child'.mapLeaves (relink below))
    (mapRight (relink below) right)
      (report key child) := by
    refine ⟨holds, pids ▸ nodup, pids ▸ fun member => before.outside (inside _ member), ?_, ?_, ?_, ?_⟩
    · obtain ⟨_, row⟩ := child'
      simpa using size
    · obtain ⟨_, row⟩ := child'
      simpa using few
    · intro entry member
      rw [mapLeft, List.head?_map] at member
      obtain ⟨⟨⟨_, row⟩, key⟩, among, rfl⟩ := Option.mem_map.mp member
      simpa using (siblings.1 _ among).1
    · intro entry member
      rw [mapRight, List.head?_map] at member
      obtain ⟨⟨key, ⟨_, row⟩⟩, among, rfl⟩ := Option.mem_map.mp member
      simpa using (siblings.2 _ among).1
  rw [← samePid, ← pid_mapLeaves (pageId_relink below)]
  have repairs : Ran _ st₁ (Repairs cut st₁ _ _ _ _ _) := repairInternal_spec below₁
  refine repairs.imp ?_
  rintro result st' ⟨node', here, mapped, again, ending⟩
  obtain ⟨node₀, repaired, rfl, rfl⟩ := mapped.of_mapLeaves
  refine ⟨node₀, below, ?_, ⟨?_, again.counter.trans changed.counter, ?_,
    changed.leaves.trans again.leaves⟩, ?_⟩
  · refine deleted_node.mpr ⟨left, child, right, child', below, none, rfl, place, deleted, rfl, ?_⟩
    rw [if_pos underflown]
    exact repaired
  · have final := again.holds
    rwa [mapLeaves_id fun page _ => relink_none page] at final
  · intro pid away notMeta
    rw [again.frame pid (fun member => away (inside pid (pids ▸ member))) notMeta, relinkedPages_none]
    exact changed.frame pid (mem_replaced away) notMeta
  · rw [report_node place, if_pos underflown]
    rcases ending with ⟨sameRoot, sameMeta, rfl, -⟩ | ⟨low, -⟩
    · refine .inl ⟨sameRoot.trans root, sameMeta.trans metaPage, ?_, fun low => absurd low (by omega)⟩
      rw [siblingLends_map, mapLeft, mapRight, List.length_map, List.length_map]
    · exact absurd low (by omega)

end Internal

/-- Deleting below a page is a deletion of its tree. -/
theorem deleteFrom_spec (fuel : Nat) (enough : h < fuel) {st : BTree} (before : Deletable cut key st tree) :
    Ran (deleteFrom (fun _ => 0) fuel tree.pid key) st (Deletes cut key st tree) := by
  induction h generalizing fuel st with
  | zero =>
    obtain ⟨fuel, rfl⟩ := Nat.exists_eq_add_of_lt enough
    exact deleteFrom_leaf _ _ before
  | succ h ih =>
    obtain ⟨fuel, rfl⟩ : ∃ rest, fuel = rest + 1 := ⟨fuel - 1, by omega⟩
    obtain ⟨id, row⟩ := tree
    obtain ⟨left, child, right, rfl, place⟩ := row.exists_found key
    obtain ⟨⟨page, stored, named, shown⟩, -⟩ := holds_focus.mp before.holds
    have agrees : st.Agrees ((st.record (.request id)).record (.read id)) := ⟨rfl, rfl, rfl⟩
    simp only [deleteFrom, pid_node, ran_bind, ran_requestPage, ran_readPage, pages_record, stored,
      shown.getChildPageId (found_pids place)]
    refine (ih fuel (by omega) (before.child place |>.agrees agrees)).imp fun result st₁ deletes => ?_
    obtain ⟨child', fix, deleted, changed, ending⟩ := deletes.of_agrees agrees
    rcases ending with ⟨root, metaPage, rfl, -⟩ | ⟨-, sameRoot, -⟩
    swap
    · -- The root is no page below another one.
      rw [deleted.pid fun leaf member =>
        before.valid leaf (mem_leaves_node.mpr ⟨child, by simp, member⟩)] at sameRoot
      refine absurd ?_ before.below
      rw [sameRoot, pids_focus, List.tail_cons]
      simp [pid_mem_pids]
    cases h with
    | zero =>
      have kind : (report (h := 0) key child).pageType = .leafPage := rfl
      simp only [kind]
      split
      next underflown => exact deletes_leaf before place deleted changed root metaPage underflown
      next calm =>
        simp only [ran_bind, ran_releasePage, ran_pure]
        exact deletes_calm before place deleted changed root metaPage ⟨rfl, rfl, rfl⟩ (by simpa using calm)
    | succ h =>
      simp only [report_internal child]
      split
      next underflown => exact deletes_internal before place deleted changed root metaPage underflown
      next calm =>
        simp only [ran_bind, ran_releasePage, ran_pure]
        exact deletes_calm before place deleted changed root metaPage ⟨rfl, rfl, rfl⟩ (by simpa using calm)

/-! ### The whole tree -/

/-- The last key of a root above internal pages goes: its only two children are merged. -/
def LosesLastKey (key : Nat) : {h : Nat} → Tree h → Prop
  | h + 2, node =>
    ∃ (left : List (Tree (h + 1) × Nat)) (child : Tree (h + 1)) (right : List (Nat × Tree (h + 1))),
      Branch.row node = Row.close left child right ∧ Row.Found left key right ∧
        left.length + right.length = 1 ∧
        ∃ size, lowSize key child = some size ∧ siblingLends left right size = false
  | _, _ => False

/-- A root above internal pages keeps a key unless it loses its last. -/
private theorem Deleted.keyed {tree tree' : Tree (h + 2)} (deleted : Deleted cut key tree tree' fix)
    (keyed : Keyed tree)
    (stays : ¬ LosesLastKey key tree) : Keyed tree' := by
  obtain ⟨id, row⟩ := tree
  obtain ⟨left, child, right, child', below, here, rfl, place, deletedChild, -, repaired⟩ :=
    deleted_node.mp deleted
  have several : left.length + right.length ≠ 0 := by
    rw [← Row.length_rest_close left child right]
    exact fun none => keyed (List.length_eq_zero_iff.mp none)
  have counted : (Branch.row tree').rest.length ≠ 0 → Keyed tree' := fun some none => some (by rw [none]; rfl)
  apply counted
  split at repaired
  next underflown =>
    rw [repaired.count]
    split
    next => exact several
    next refuses =>
      intro single
      obtain ⟨low, size⟩ := report_lowSize key child
      obtain ⟨used, found⟩ := Option.isSome_iff_exists.mp (low.symm.trans underflown)
      rw [size used found] at refuses
      exact stays ⟨left, child, right, rfl, place, by omega, used, found, by simpa using refuses⟩
  next =>
    obtain ⟨rfl, -⟩ := repaired
    rw [Row.length_rest_close]
    exact several

theorem Deleted.valid (deleted : Deleted cut key tree tree' fix) (valid : ∀ leaf ∈ tree.leaves, leaf.Valid) :
    ∀ leaf ∈ tree'.leaves, leaf.Valid := by
  obtain ⟨page, first, old, new, second, -, member, before, after, changed⟩ := deleted.leaves
  have pageValid := (tuples_deleteTuple (valid page member) key).1
  rw [before] at valid
  rw [after]
  intro leaf found
  rcases List.mem_append.mp found with found | found
  · exact valid leaf (List.mem_append_left _ found)
  rcases List.mem_append.mp found with found | found
  swap
  · exact valid leaf (List.mem_append_right _ (List.mem_append_right _ found))
  cases changed with
  | alone =>
    obtain rfl := List.mem_singleton.mp found
    exact pageValid
  | lentLeft rotated | lentRight rotated =>
    rcases List.mem_cons.mp found with rfl | found
    · exact rotated.leftValid
    · obtain rfl := List.mem_singleton.mp found
      exact rotated.rightValid
  | mergedLeft joined | mergedRight joined =>
    obtain rfl := List.mem_singleton.mp found
    exact joined.valid

end Tree

/-- What one deletion does: a deletion of the tree, where a root that keeps a single leaf gives way
to it. -/
structure Reduced (cut : Nat → Nat → Prop) (key : Nat) (st st' : BTree) {h h' : Nat} (tree : Tree h)
    (final : Tree h') : Prop where
  represents : Represents cut st' final
  keyed : tree.Keyed → ¬ tree.LosesLastKey key → final.Keyed
  kept : OverflowKept st st'
  leafKept : LeafKept st st'
  counter : st'.newPageOffsetIndex = st.newPageOffsetIndex
  leaves : ∃ tree' fix, Tree.Deleted cut key tree tree' fix ∧
    final.leaves = tree'.leaves.map (Tree.relink fix) ∧
    ((st'.rootPageId = st.rootPageId ∧ h' = h) ∨ (h = 1 ∧ h' = 0 ∧ tree'.onlyChild = some st'.rootPageId))

variable {cut : Nat → Nat → Prop} {st st' : BTree} {h : Nat} {tree tree' : Tree h} {key : Nat}
    {fix : Option (Nat × Nat)}

private theorem reduced_kept (order : Order cut) (represents : Represents cut st tree)
    (deleted : tree.Deleted cut key tree' fix)
    (changed : Tree.Changed st st' tree tree' fix) (root : st'.rootPageId = st.rootPageId)
    (metaPage : st'.pages DATABASE_META_PAGE_ID = st.pages DATABASE_META_PAGE_ID)
    (keyed : tree.Keyed → ¬ tree.LosesLastKey key → tree'.Keyed) (kept : OverflowKept st st') :
    Reduced cut key st st' tree (tree'.mapLeaves (Tree.relink fix)) := by
  have samePid := deleted.pid represents.valid
  have pid : (tree'.mapLeaves (Tree.relink fix)).pid = tree'.pid :=
    Tree.pid_mapLeaves (Tree.pageId_relink fix)
  have pids : (tree'.mapLeaves (Tree.relink fix)).pids = tree'.pids :=
    Tree.pids_mapLeaves (Tree.pageId_relink fix)
  obtain ⟨gone, perm⟩ := deleted.pids represents.valid
  refine ⟨⟨?_, ?_, changed.holds, ?_, ?_, ?_, ?_, ?_⟩, fun before stays =>
    (keyed before stays).mapLeaves, kept, fun pid page _ => changed.leaves pid page, changed.counter,
    tree', fix, deleted, Tree.leaves_mapLeaves _, .inl ⟨root, rfl⟩⟩
  · rw [root, represents.root, pid, samePid]
  · rw [metaPage, represents.metaPage, pid, samePid]
  · rw [pids]
    exact (List.nodup_append.mp (perm.nodup_iff.mpr represents.nodup)).1
  · rw [pids, changed.counter]
    exact fun other inside => represents.bounded other (perm.mem_iff.mp (List.mem_append_left _ inside))
  · rw [Tree.leaves_mapLeaves]
    intro leaf member
    obtain ⟨before, inside, rfl⟩ := List.mem_map.mp member
    exact Tree.valid_relink fix (deleted.valid represents.valid before inside)
  · intro tells
    have rel := order.tells tells
    refine (deleted.within rel represents.valid (represents.ordered tells)).mapLeaves_same
      fun leaf _ tuple inside => ?_
    rw [Tree.tuples_relink] at inside
    exact ⟨tuple, inside, rfl⟩
  · refine (deleted.rooted represents.valid represents.rooted).mapLeaves fun leaf _ nonempty => ?_
    rwa [Tree.tuples_relink]

/-- A root with a single leaf gives way to it. -/
private theorem reduced_collapsed {tree tree' : Tree 1} (order : Order cut)
    (represents : Represents cut st tree)
    (deleted : tree.Deleted cut key tree' fix) (changed : Tree.Changed st st' tree tree' fix)
    (only : tree'.onlyChild = some st'.rootPageId)
    (metaPage : st'.pages DATABASE_META_PAGE_ID = .databaseMeta DATABASE_MAGIC_NUMBER st'.rootPageId)
    (kept : OverflowKept st st') :
    ∃ final : Tree 0, Reduced cut key st st' tree final := by
  obtain ⟨gone, perm⟩ := deleted.pids represents.valid
  have valid := deleted.valid represents.valid
  have holds := changed.holds
  obtain ⟨id, head, rest⟩ := tree'
  obtain ⟨rfl, root⟩ : rest = [] ∧ LeafPage.pageId head = st'.rootPageId := by
    simp only [Tree.onlyChild] at only
    split at only
    next none => exact ⟨none, Option.some.inj only⟩
    next => cases only
  have bounded : DATABASE_META_PAGE_ID < LeafPage.pageId head ∧
      LeafPage.pageId head < st'.newPageOffsetIndex := by
    rw [changed.counter]
    refine represents.bounded _ (perm.mem_iff.mp (List.mem_append_left _ ?_))
    exact List.mem_cons_of_mem id (List.mem_singleton.mpr rfl)
  have leaf : Tree.Holds (h := 0) st'.pages (Tree.relink fix head) :=
    (Tree.holds_node.mp holds).2 _ (by simp [Row.children, Row.map])
  refine ⟨Tree.relink fix head, ⟨?_, ?_, leaf, ?_, ?_, ?_, ?_, trivial⟩, fun _ _ => trivial, kept,
    fun pid page _ => changed.leaves pid page, changed.counter,
    _, fix, deleted, rfl, .inr ⟨rfl, rfl, only⟩⟩
  · rw [Tree.pid_leaf, Tree.pageId_relink, root]
  · rw [metaPage, Tree.pid_leaf, Tree.pageId_relink, root]
  · simp
  · intro pid inside
    obtain rfl : pid = LeafPage.pageId head := by simpa using inside
    exact bounded
  · intro other member
    obtain rfl : other = Tree.relink fix head := by simpa using member
    exact Tree.valid_relink fix (valid head (List.mem_singleton.mpr rfl))
  · intro tells
    have within := deleted.within (order.tells tells) represents.valid (represents.ordered tells)
    have chain : (Row.close [] head []).Chain (Tree.Within cut) 0 KEY_LIMIT := Tree.within_node.mp within
    obtain ⟨bounds, keys⟩ := Tree.within_leaf.mp (Row.chain_close.mp chain).2.1
    refine Tree.within_leaf.mpr ⟨bounds, ?_⟩
    rw [Tree.tuples_relink]
    exact keys

theorem Represents.deletable (represents : Represents cut st tree)
    (known : ∀ leaf ∈ tree.leaves, leaf.rightPid = 0 ∨ ∃ page, st.pages leaf.rightPid = .leaf page)
    (clean : tree.CleanDelete cut key) :
    Tree.Deletable cut key st tree := by
  refine ⟨represents.holds, represents.nodup, fun inside =>
    Nat.lt_irrefl _ (represents.bounded _ inside).1, ?_, ?_, represents.valid, known,
    represents.rooted, clean⟩
  · rw [represents.root]
    exact represents.metaPage
  · have nodup := represents.nodup
    rw [represents.root]
    cases h with
    | zero => simp
    | succ h =>
      obtain ⟨id, row⟩ := tree
      exact (List.nodup_cons.mp nodup).1

theorem delete_spec (order : Order cut) (represents : Represents cut st tree)
    (known : ∀ leaf ∈ tree.leaves, leaf.rightPid = 0 ∨ ∃ page, st.pages leaf.rightPid = .leaf page)
    (clean : tree.CleanDelete cut key) :
    Ran (BTree.delete (fun _ => 0) key) st fun result st' =>
      result = (tree.report key).success ∧ ∃ (h' : Nat) (final : Tree h'),
        Reduced cut key st st' tree final := by
  have before := represents.deletable known clean
  simp only [BTree.delete, ran_bind, ran_get, represents.root]
  refine (Tree.deleteFrom_spec _ represents.fuel before).imp ?_
  rintro result st' ⟨tree', fix, deleted, changed, ending⟩
  rw [ran_pure]
  have kept : OverflowKept st st' := by
    refine ⟨Nat.le_of_eq changed.counter.symm, fun pid page _ stored => ?_⟩
    have away : pid ∉ tree.pids := by
      intro inside
      rcases represents.holds.kind inside with ⟨other, found⟩ | ⟨leaf, -, -, found⟩ <;> simp [stored] at found
    have notMeta : pid ≠ DATABASE_META_PAGE_ID := by
      rintro rfl
      simp [represents.metaPage] at stored
    rw [changed.frame pid away notMeta]
    exact Tree.relinkedPages_overflow stored
  rcases ending with ⟨root, metaPage, rfl, single⟩ | ⟨rfl, -, only, metaPage, rfl⟩
  · refine ⟨rfl, h, _, reduced_kept order represents deleted changed root metaPage ?_ kept⟩
    intro keyed stays
    match h, tree, tree' with
    | 0, _, _ => trivial
    | 1, ⟨id, row⟩, ⟨id', row'⟩ =>
      exact Tree.onlyChild_eq_none.mp (single rfl represents.root (Tree.onlyChild_eq_none.mpr keyed))
    | h + 2, _, _ => exact deleted.keyed keyed stays
  · obtain ⟨final, reduced⟩ := reduced_collapsed order represents deleted changed only metaPage kept
    exact ⟨rfl, 0, final, reduced⟩

end Datashil
