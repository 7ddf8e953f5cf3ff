import Datashil.BTree
import Datashil.Proofs.LeafDelete
import Datashil.Proofs.TreeInsert

/-! Deleting from a tree: the key's leaf loses a tuple, and every page that runs
low on the way up is repaired from a sibling. -/

namespace Datashil
open Library LeafPage

structure LeafRotated (cut : Nat → Nat → Prop) (left right left' right' : LeafPage) (middle : Nat) :
    Prop where
  leftValid : left'.Valid
  rightValid : right'.Valid
  leftIds : left'.pageId = left.pageId ∧ left'.leftPid = left.leftPid ∧ left'.rightPid = left.rightPid
  rightIds : right'.pageId = right.pageId ∧ right'.leftPid = right.leftPid ∧ right'.rightPid = right.rightPid
  tuples : (left'.tuples ++ right'.tuples).Perm (left.tuples ++ right.tuples)
  nonempty : left'.tuples ≠ []
  boundary : right'.tuples.head?.map keyOf = some middle
  separated : Separated cut left' right'

namespace LeafPage

/-- What a leaf asks of a sibling. -/
def shortage (child : LeafPage) : Nat := u16 ((LEAF_UNDERFLOW_THRESHOLD + 1) - child.used)

def leftBorrowed (child sibling : LeafPage) : LeafPage × LeafPage × Nat :=
  handleLeftBorrow child sibling (sibling.canLendFromRight child.shortage)

def rightBorrowed (child sibling : LeafPage) : LeafPage × LeafPage × Nat :=
  handleRightBorrow child sibling (sibling.canLendFromLeft child.shortage)

end LeafPage

structure LeafMerged (left right merged : LeafPage) : Prop where
  valid : merged.Valid
  ids : merged.pageId = left.pageId ∧ merged.leftPid = left.leftPid ∧ merged.rightPid = right.rightPid
  tuples : merged.tuples.Perm (left.tuples ++ right.tuples)

namespace Tree

/-- Two neighbouring subtrees share what is below them out anew, across a new separator. -/
def Rotated (cut : Nat → Nat → Prop) : {h : Nat} → (left : Tree h) → (key : Nat) → (right left' : Tree h) →
    (middle : Nat) → (right' : Tree h) → Prop
  | 0, left, _, right, left', middle, right' => LeafRotated cut left right left' right' middle
  | _ + 1, left, key, right, left', middle, right' =>
    Branch.pid left' = Branch.pid left ∧ Branch.pid right' = Branch.pid right ∧
      (Branch.row left).join key (Branch.row right) = (Branch.row left').join middle (Branch.row right') ∧
      127 ≤ (Branch.row left').rest.length ∧ 127 ≤ (Branch.row right').rest.length

/-- The left one of two neighbouring subtrees takes in the right one. -/
def Merged : {h : Nat} → (left : Tree h) → (key : Nat) → (right merged : Tree h) → Prop
  | 0, left, _, right, merged => LeafMerged left right merged
  | _ + 1, left, key, right, merged =>
    merged = Branch.mk (Branch.pid left) ((Branch.row left).join key (Branch.row right))

def LentLeft : {h : Nat} → (sibling child sibling' child' : Tree h) → Prop
  | 0, sibling, child, sibling', child' =>
    sibling' = (LeafPage.leftBorrowed child sibling).2.1 ∧
      child' = (LeafPage.leftBorrowed child sibling).1
  | _ + 1, _, _, _, _ => True

def LentRight : {h : Nat} → (child sibling child' sibling' : Tree h) → Prop
  | 0, child, sibling, child', sibling' =>
    child' = (LeafPage.rightBorrowed child sibling).1 ∧
      sibling' = (LeafPage.rightBorrowed child sibling).2.1
  | _ + 1, _, _, _, _ => True

def MergedPages : {h : Nat} → (left right merged : Tree h) → Prop
  | 0, left, right, merged => LeafPage.mergePages left right = .ok merged
  | _ + 1, _, _, _ => True

/-- The left link to set after a merge: of the page to the right, back to the merged one. -/
def link : {h : Nat} → Tree h → Option (Nat × Nat)
  | 0, page =>
    if LeafPage.rightPid page = 0 then none else some (LeafPage.rightPid page, LeafPage.pageId page)
  | _ + 1, _ => none

def relink : Option (Nat × Nat) → LeafPage → LeafPage
  | none, page => page
  | some (pid, leftPid), page => if page.pageId = pid then { page with leftPid } else page

/-! ### What is reported -/

/-- Whether a subtree can give something away at its right end to a sibling that uses `size` bytes. -/
def lendsFromRight : {h : Nat} → Tree h → (size : Nat) → Bool
  | 0, page, size => (LeafPage.canLendFromRight page (u16 ((LEAF_UNDERFLOW_THRESHOLD + 1) - size))).canBorrow
  | _ + 1, node, size =>
    (InternalPage.canLend ⟨Branch.pid node, (Branch.row node).rest.length, fun _ => 0⟩
      (u16 ((INTERNAL_UNDERFLOW_THRESHOLD + 1) - size))).canBorrow

def lendsFromLeft : {h : Nat} → Tree h → (size : Nat) → Bool
  | 0, page, size => (LeafPage.canLendFromLeft page (u16 ((LEAF_UNDERFLOW_THRESHOLD + 1) - size))).canBorrow
  | _ + 1, node, size => lendsFromRight (h := _ + 1) node size

def siblingLends {h : Nat} (left : List (Tree h × Nat)) (right : List (Nat × Tree h)) (size : Nat) : Bool :=
  left.head?.any (fun entry => lendsFromRight entry.1 size) || right.head?.any fun entry =>
    lendsFromLeft entry.2 size

/-- The report of a page with `keys` keys that had to be repaired: `lends` says whether
a sibling lent to its child. -/
def repairReport (lends : Bool) (keys : Nat) (success : Bool) : DeleteStatus :=
  if lends then BTree.settled success
  else if keys = 0 then BTree.settled false
  else
    let used := (keys - 1) * SIZEOF_KEY + (keys - 1 + 1) * SIZEOF_PAGE_ID
    ⟨used ≤ INTERNAL_UNDERFLOW_THRESHOLD, .internalPage, used, success⟩

def report (key : Nat) : {h : Nat} → Tree h → DeleteStatus
  | 0, page =>
    let (page, dirty) := LeafPage.deleteTuple page key
    ⟨page.used ≤ LEAF_UNDERFLOW_THRESHOLD, .leafPage, page.used, dirty⟩
  | _ + 1, node =>
    let (left, child, right) := (Branch.row node).focus key
    let below := report key child
    if below.underflown then repairReport (siblingLends left right below.currentSize)
      (Branch.row node).rest.length below.success
    else BTree.settled below.success

/-! ### What changes -/

/-- A row without the key between two children that were merged. Right above the leaves it is not
the place of the key that is given up but the first place a search for such a key ends at, which
comes to the same where the keys are in order. -/
def Erased {h : Nat} (left : List (Tree h × Nat)) (key : Nat) (merged : Tree h) (right : List (Nat × Tree h))
    (row : Row Nat (Tree h)) : Prop :=
  row.children = (Row.close left merged right).children ∧
    (0 < h ∨ ((left.map Prod.snd).reverse ++ key :: right.map Prod.fst).Pairwise (· ≤ ·) →
      row = Row.close left merged right)

/-- The repair of a page whose focused child underflowed with `size` bytes used: the
siblings are asked from left to right, then merged with. -/
inductive Repaired {h : Nat} (cut : Nat → Nat → Prop) (size id : Nat) : List (Tree h × Nat) → Tree h →
    List (Nat × Tree h) → Branch (Tree h) → Option (Nat × Nat) → Prop
  | lendLeft {sibling child sibling' child' : Tree h} {key middle : Nat} {left : List (Tree h × Nat)}
      {right : List (Nat × Tree h)} (lends : lendsFromRight sibling size = true)
      (rotated : Rotated cut sibling key child sibling' middle child')
      (lent : LentLeft sibling child sibling' child') :
      Repaired cut size id ((sibling, key) :: left) child right
        ⟨id, Row.close left sibling' ((middle, child') :: right)⟩ none
  | lendRight {sibling child sibling' child' : Tree h} {key middle : Nat} {left : List (Tree h × Nat)}
      {right : List (Nat × Tree h)} (lends : lendsFromLeft sibling size = true)
      (rotated : Rotated cut child key sibling child' middle sibling')
      (lent : LentRight child sibling child' sibling')
      (refused : left.head?.any (fun entry => lendsFromRight entry.1 size) = false) :
      Repaired cut size id left child ((key, sibling) :: right)
        ⟨id, Row.close left child' ((middle, sibling') :: right)⟩ none
  | mergeLeft {sibling child merged : Tree h} {key : Nat} {left : List (Tree h × Nat)}
      {right : List (Nat × Tree h)}
      {row : Row Nat (Tree h)} (refused : siblingLends ((sibling, key) :: left) right size = false)
      (joined : Merged sibling key child merged) (pages : MergedPages sibling child merged)
      (erased : Erased left key merged right row) :
      Repaired cut size id ((sibling, key) :: left) child right ⟨id, row⟩ (link merged)
  | mergeRight {sibling child merged : Tree h} {key : Nat} {right : List (Nat × Tree h)}
      {row : Row Nat (Tree h)}
      (refused : siblingLends [] ((key, sibling) :: right) size = false)
      (joined : Merged child key sibling merged)
      (pages : MergedPages child sibling merged) (erased : Erased [] key merged right row) :
      Repaired cut size id [] child ((key, sibling) :: right) ⟨id, row⟩ (link merged)
  | orphan {child : Tree h} : Repaired cut size id [] child [] ⟨id, Row.close [] child []⟩ none

/-- The tree after a deletion, up to the one left link that the last argument says to set. -/
def Deleted (cut : Nat → Nat → Prop) (key : Nat) : {h : Nat} → Tree h → Tree h → Option (Nat × Nat) → Prop
  | 0, page, page', fix => page' = (LeafPage.deleteTuple page key).1 ∧ fix = none
  | _ + 1, node, node', fix =>
    ∃ left child right child' below here, (Branch.row node) = Row.close left child right ∧
      Row.Found left key right ∧ Deleted cut key child child' below ∧ fix = here.or below ∧
        if (report key child).underflown then
          Repaired cut (report key child).currentSize (Branch.pid node) left child' right node' here
        else node' = Branch.mk (Branch.pid node) (Row.close left child' right) ∧ here = none

variable {h : Nat} {tree tree' : Tree h} {cut : Nat → Nat → Prop} {key low high : Nat}
    {fix : Option (Nat × Nat)}

theorem deleted_leaf {page page' : LeafPage} : Deleted (h := 0) cut key page page' fix ↔
    page' = (page.deleteTuple key).1 ∧ fix = none := Iff.rfl

theorem deleted_node {id : Nat} {row : Row Nat (Tree h)} {node' : Tree (h + 1)} :
    Deleted (h := h + 1) cut key ⟨id, row⟩ node' fix ↔ ∃ left child right child' below here,
      row = Row.close left child right ∧ Row.Found left key right ∧ Deleted cut key child child' below ∧
        fix = here.or below ∧
        if (report key child).underflown then
          Repaired cut (report key child).currentSize id left child' right node' here
        else node' = Branch.mk id (Row.close left child' right) ∧ here = none := Iff.rfl

theorem report_node {id : Nat} {left : List (Tree h × Nat)} {child : Tree h} {right : List (Nat × Tree h)}
    (found : Row.Found left key right) : report (h := h + 1) key ⟨id, Row.close left child right⟩ =
      if (report key child).underflown then
        repairReport (siblingLends left right (report key child).currentSize)
          (left.length + right.length) (report key child).success
      else BTree.settled (report key child).success := by
  simp only [report, Row.focus_close child found, Row.length_rest_close]

section Erased
variable {left : List (Tree h × Nat)} {merged : Tree h} {right : List (Nat × Tree h)} {row : Row Nat (Tree h)}

theorem erased_close (left : List (Tree h × Nat)) (key : Nat) (merged : Tree h)
    (right : List (Nat × Tree h)) :
    Erased left key merged right (Row.close left merged right) := ⟨rfl, fun _ => rfl⟩

theorem Erased.leaves (erased : Erased left key merged right row) (id : Nat) :
    Tree.leaves (h := h + 1) ⟨id, row⟩ = Tree.leaves (h := h + 1) ⟨id, Row.close left merged right⟩ := by
  rw [leaves_row, leaves_row, erased.1]

theorem Erased.pids (erased : Erased left key merged right row) (id : Nat) :
    Tree.pids (h := h + 1) ⟨id, row⟩ = Tree.pids (h := h + 1) ⟨id, Row.close left merged right⟩ := by
  rw [pids_row, pids_row, erased.1]

theorem Erased.length (erased : Erased left key merged right row) :
    row.rest.length = left.length + right.length := by
  have length := congrArg List.length erased.1
  rw [Row.length_children, Row.length_children, Row.length_rest_close] at length
  exact Nat.succ.inj length

/-- In a tree in order, the key between the two children is given up. -/
theorem Erased.eq_close (rel : Cut cut) {id : Nat} {first second : Tree h}
    (erased : Erased left key merged right row)
    (within : Within (h := h + 1) cut low ⟨id, Row.close left first ((key, second) :: right)⟩ high) :
    row = Row.close left merged right := by
  have sorted := within.sorted_keys rel
  rw [Row.keys_close] at sorted
  exact erased.2 (.inr sorted)

end Erased

/-! ### Bounds -/

private theorem LeafRotated.within (rel : Cut cut) {left right left' right' : LeafPage} {middle : Nat}
    (rotated : LeafRotated cut left right left' right' middle) (leftIn : Within (h := 0) cut low left key)
    (rightIn : Within (h := 0) cut key right high) :
    Within (h := 0) cut low left' middle ∧ Within (h := 0) cut middle right' high := by
  obtain ⟨lowKey, leftKeys⟩ := within_leaf.mp leftIn
  obtain ⟨keyHigh, rightKeys⟩ := within_leaf.mp rightIn
  have bounds : ∀ tuple ∈ left'.tuples ++ right'.tuples, low ≤ keyOf tuple ∧ cut (keyOf tuple) high := by
    intro tuple member
    rcases List.mem_append.mp (rotated.tuples.mem_iff.mp member) with old | old
    · exact ⟨(leftKeys tuple old).1, rel.right (leftKeys tuple old).2 (rel.le keyHigh)⟩
    · exact ⟨Nat.le_trans (rel.le lowKey) (rightKeys tuple old).1, (rightKeys tuple old).2⟩
  obtain ⟨first, rest, tuples, rfl⟩ : ∃ first rest, right'.tuples = first :: rest ∧ keyOf first = middle := by
    have boundary := rotated.boundary
    cases tuples : right'.tuples with
    | nil => simp [tuples] at boundary
    | cons first rest => exact ⟨first, rest, rfl, by simpa [tuples] using boundary⟩
  have firstMem : first ∈ right'.tuples := by rw [tuples]; exact List.mem_cons_self
  obtain ⟨lower, member⟩ := List.exists_mem_of_ne_nil _ rotated.nonempty
  refine ⟨within_leaf.mpr ⟨?_, ?_⟩, within_leaf.mpr ⟨(bounds first (List.mem_append_right _ firstMem)).2, ?_⟩⟩
  · exact rel.left (bounds lower (List.mem_append_left _ member)).1
      (rotated.separated lower member first firstMem)
  · intro tuple inside
    exact ⟨(bounds tuple (List.mem_append_left _ inside)).1, rotated.separated tuple inside first firstMem⟩
  · intro tuple inside
    refine ⟨?_, (bounds tuple (List.mem_append_right _ inside)).2⟩
    have sorted := rotated.rightValid.keys_sorted
    rw [tuples, List.map_cons, List.pairwise_cons] at sorted
    rw [tuples] at inside
    rcases List.mem_cons.mp inside with rfl | inside
    · exact Nat.le_refl _
    · exact sorted.1 _ (List.mem_map_of_mem inside)

theorem Rotated.within (rel : Cut cut) {left right left' right' : Tree h} {middle : Nat}
    (rotated : Rotated cut left key right left' middle right') (leftIn : Within cut low left key)
    (rightIn : Within cut key right high) :
    Within cut low left' middle ∧ Within cut middle right' high := by
  cases h with
  | zero => exact LeafRotated.within rel rotated leftIn rightIn
  | succ h =>
    obtain ⟨-, -, joined, -⟩ := rotated
    have chain := Row.chain_join.mpr ⟨within_node.mp leftIn, within_node.mp rightIn⟩
    rw [joined, Row.chain_join] at chain
    exact ⟨within_node.mpr chain.1, within_node.mpr chain.2⟩

theorem Merged.within (rel : Cut cut) {left right merged : Tree h} (joined : Merged left key right merged)
    (leftIn : Within cut low left key) (rightIn : Within cut key right high) :
    Within cut low merged high := by
  cases h with
  | zero =>
    obtain ⟨lowKey, leftKeys⟩ := within_leaf.mp leftIn
    obtain ⟨keyHigh, rightKeys⟩ := within_leaf.mp rightIn
    refine within_leaf.mpr ⟨rel.right lowKey (rel.le keyHigh), ?_⟩
    intro tuple member
    rcases List.mem_append.mp ((LeafMerged.tuples joined).mem_iff.mp member) with old | old
    · exact ⟨(leftKeys tuple old).1, rel.right (leftKeys tuple old).2 (rel.le keyHigh)⟩
    · exact ⟨Nat.le_trans (rel.le lowKey) (rightKeys tuple old).1, (rightKeys tuple old).2⟩
  | succ h =>
    subst joined
    exact within_node.mpr (Row.chain_join.mpr ⟨within_node.mp leftIn, within_node.mp rightIn⟩)

theorem Repaired.within (rel : Cut cut) {size id : Nat} {left : List (Tree h × Nat)} {child : Tree h}
    {right : List (Nat × Tree h)} {node' : Branch (Tree h)}
    (repaired : Repaired cut size id left child right node' fix)
    (within : Within (h := h + 1) cut low ⟨id, Row.close left child right⟩ high) :
    Within (h := h + 1) cut low node' high := by
  obtain ⟨before, here, after⟩ := Row.chain_close.mp (within_node.mp within)
  cases repaired with
  | lendLeft lends rotated =>
    obtain ⟨first, second⟩ := rotated.within rel before.2 here
    exact within_node.mpr (Row.chain_close.mpr ⟨before.1, first, second, after⟩)
  | lendRight lends rotated =>
    obtain ⟨first, second⟩ := rotated.within rel here after.1
    exact within_node.mpr (Row.chain_close.mpr ⟨before, first, second, after.2⟩)
  | mergeLeft refused joined pages erased =>
    rw [erased.eq_close rel within]
    exact within_node.mpr (Row.chain_close.mpr ⟨before.1, joined.within rel before.2 here, after⟩)
  | mergeRight refused joined pages erased =>
    rw [erased.eq_close rel within]
    exact within_node.mpr (Row.chain_close.mpr ⟨trivial, joined.within rel here after.1, after.2⟩)
  | orphan => exact within_node.mpr (Row.chain_close.mpr ⟨trivial, here, after⟩)

theorem tuples_deleteTuple {page : LeafPage} (valid : page.Valid) (key : Nat) :
    (page.deleteTuple key).1.Valid ∧ (page.deleteTuple key).1.pageId = page.pageId ∧
      (page.deleteTuple key).1.leftPid = page.leftPid ∧ (page.deleteTuple key).1.rightPid = page.rightPid ∧
      (page.deleteTuple key).1.tuples.Sublist page.tuples := by
  rcases deleteTuple_spec valid key with ⟨-, same⟩ | ⟨first, tuple, second, result, found, same,
    discarded, tuples⟩
  · rw [same]
    exact ⟨valid, rfl, rfl, rfl, .refl _⟩
  · rw [same, found.1, tuples]
    exact ⟨discarded.valid, discarded.pageId, discarded.leftPid, discarded.rightPid,
      (List.Sublist.refl first).append (List.sublist_cons_self tuple second)⟩

theorem Deleted.within (rel : Cut cut) (deleted : Deleted cut key tree tree' fix)
    (valid : ∀ leaf ∈ tree.leaves, leaf.Valid)
    (within : Within cut low tree high) : Within cut low tree' high := by
  induction h generalizing low high fix with
  | zero =>
    obtain ⟨rfl, -⟩ := deleted_leaf.mp deleted
    obtain ⟨bounds, keys⟩ := within_leaf.mp within
    exact within_leaf.mpr ⟨bounds, fun tuple member =>
      keys tuple ((tuples_deleteTuple (valid tree (by simp)) key).2.2.2.2.mem member)⟩
  | succ h ih =>
    obtain ⟨id, row⟩ := tree
    obtain ⟨left, child, right, child', below, here, rfl, found, deleted, -, repaired⟩ :=
      deleted_node.mp deleted
    obtain ⟨before, inner, after⟩ := Row.chain_close.mp (within_node.mp within)
    have inner := ih deleted (fun leaf member =>
      valid leaf (mem_leaves_node.mpr ⟨child, by simp, member⟩)) inner
    have whole : Within (h := h + 1) cut low ⟨id, Row.close left child' right⟩ high :=
      within_node.mpr (Row.chain_close.mpr ⟨before, inner, after⟩)
    split at repaired
    · exact repaired.within rel whole
    · obtain ⟨rfl, -⟩ := repaired
      exact whole

/-! ### Pages -/

theorem Rotated.pids {left right left' right' : Tree h} {middle : Nat}
    (rotated : Rotated cut left key right left' middle right') :
    (left'.pids ++ right'.pids).Perm (left.pids ++ right.pids) := by
  cases h with
  | zero => rw [pids_leaf, pids_leaf, pids_leaf, pids_leaf, rotated.leftIds.1, rotated.rightIds.1]
  | succ h =>
    obtain ⟨leftId, leftRow⟩ := left
    obtain ⟨rightId, rightRow⟩ := right
    obtain ⟨leftId', leftRow'⟩ := left'
    obtain ⟨rightId', rightRow'⟩ := right'
    obtain ⟨rfl, rfl, joined, -⟩ := rotated
    have trails := congrArg (fun row => row.trail Tree.pids fun _ => []) joined
    simp only [Row.trail_join, List.nil_append] at trails
    simp only [pids_node, List.perm_iff_count, List.count_append, List.count_cons]
    intro pid
    have counts := congrArg (List.count pid) trails
    simp only [List.count_append] at counts
    omega

theorem Merged.pids {left right merged : Tree h} (joined : Merged left key right merged) :
    (merged.pids ++ [right.pid]).Perm (left.pids ++ right.pids) := by
  cases h with
  | zero => rw [pids_leaf, pids_leaf, pids_leaf, (LeafMerged.ids joined).1]; rfl
  | succ h =>
    obtain ⟨leftId, leftRow⟩ := left
    obtain ⟨rightId, rightRow⟩ := right
    subst joined
    simp only [pids_node, pid_node, Row.trail_join, List.nil_append, List.perm_iff_count,
      List.count_append, List.count_cons,
      List.count_nil]
    intro pid
    omega

/-- A repair takes one page out of the tree at most. -/
theorem Repaired.pids {size id : Nat} {left : List (Tree h × Nat)} {child : Tree h}
    {right : List (Nat × Tree h)}
    {node' : Branch (Tree h)} (repaired : Repaired cut size id left child right node' fix) :
    ∃ gone, (Tree.pids (h := h + 1) node' ++ gone).Perm
      (Tree.pids (h := h + 1) ⟨id, Row.close left child right⟩) := by
  cases repaired with
  | lendLeft lends rotated =>
    refine ⟨[], ?_⟩
    have perm := rotated.pids
    simp only [pids_focus, Row.before_cons, Row.after_cons, List.nil_append, List.append_nil,
      List.perm_iff_count, List.count_append,
      List.count_cons] at perm ⊢
    intro pid
    have := perm pid
    omega
  | lendRight lends rotated =>
    refine ⟨[], ?_⟩
    have perm := rotated.pids
    simp only [pids_focus, Row.after_cons, List.nil_append, List.append_nil, List.perm_iff_count,
      List.count_append,
      List.count_cons] at perm ⊢
    intro pid
    have := perm pid
    omega
  | mergeLeft refused joined pages erased =>
    refine ⟨[child.pid], ?_⟩
    have perm := joined.pids
    rw [erased.pids]
    simp only [pids_focus, Row.before_cons, List.append_nil, List.perm_iff_count, List.count_append,
      List.count_cons] at perm ⊢
    intro pid
    have := perm pid
    omega
  | @mergeRight sibling _ _ _ _ _ refused joined pages erased =>
    refine ⟨[sibling.pid], ?_⟩
    have perm := joined.pids
    rw [erased.pids]
    simp only [pids_focus, Row.after_cons, List.nil_append, List.perm_iff_count, List.count_append,
      List.count_cons] at perm ⊢
    intro pid
    have := perm pid
    omega
  | orphan => exact ⟨[], by simp⟩

theorem Deleted.pids (deleted : Deleted cut key tree tree' fix) (valid : ∀ leaf ∈ tree.leaves, leaf.Valid) :
    ∃ gone, (tree'.pids ++ gone).Perm tree.pids := by
  induction h generalizing fix with
  | zero =>
    obtain ⟨rfl, -⟩ := deleted_leaf.mp deleted
    refine ⟨[], ?_⟩
    rw [pids_leaf, pids_leaf, (tuples_deleteTuple (valid tree (by simp)) key).2.1, List.append_nil]
  | succ h ih =>
    obtain ⟨id, row⟩ := tree
    obtain ⟨left, child, right, child', below, here, rfl, found, deleted, -, repaired⟩ :=
      deleted_node.mp deleted
    obtain ⟨gone, perm⟩ := ih deleted fun leaf member =>
      valid leaf (mem_leaves_node.mpr ⟨child, by simp, member⟩)
    have whole : (Tree.pids (h := h + 1) ⟨id, Row.close left child' right⟩ ++ gone).Perm
        (Tree.pids (h := h + 1) ⟨id, Row.close left child right⟩) := by
      simp only [pids_focus, List.perm_iff_count, List.count_append, List.count_cons] at perm ⊢
      intro pid
      have := perm pid
      omega
    split at repaired
    · obtain ⟨more, repairedPerm⟩ := repaired.pids
      refine ⟨more ++ gone, ?_⟩
      rw [← List.append_assoc]
      exact (repairedPerm.append_right gone).trans whole
    · obtain ⟨rfl, -⟩ := repaired
      exact ⟨gone, whole⟩

theorem Deleted.pid (deleted : Deleted cut key tree tree' fix)
    (valid : ∀ leaf ∈ tree.leaves, leaf.Valid) : tree'.pid = tree.pid := by
  cases h with
  | zero =>
    obtain ⟨rfl, -⟩ := deleted_leaf.mp deleted
    exact (tuples_deleteTuple (valid tree (by simp)) key).2.1
  | succ h =>
    obtain ⟨id, row⟩ := tree
    obtain ⟨left, child, right, child', below, here, rfl, found, deleted, -, repaired⟩ :=
      deleted_node.mp deleted
    split at repaired
    · cases repaired <;> rfl
    · obtain ⟨rfl, -⟩ := repaired
      rfl

/-! ### Leaves -/

/-- What a deletion does to the leaf of the key, alone or with the neighbour it is repaired from. -/
inductive LeafDeleted (cut : Nat → Nat → Prop) (key : Nat) (page : LeafPage) :
    List LeafPage → List LeafPage → Option (Nat × Nat) → Prop
  | alone : LeafDeleted cut key page [page] [(page.deleteTuple key).1] none
  | lentLeft {sibling sibling' page' : LeafPage} {middle : Nat}
      (rotated : LeafRotated cut sibling (page.deleteTuple key).1 sibling' page' middle) :
      LeafDeleted cut key page [sibling, page] [sibling', page'] none
  | lentRight {sibling sibling' page' : LeafPage} {middle : Nat}
      (rotated : LeafRotated cut (page.deleteTuple key).1 sibling page' sibling' middle) :
      LeafDeleted cut key page [page, sibling] [page', sibling'] none
  | mergedLeft {sibling merged : LeafPage} (joined : LeafMerged sibling (page.deleteTuple key).1 merged) :
      LeafDeleted cut key page [sibling, page] [merged] (link (h := 0) merged)
  | mergedRight {sibling merged : LeafPage} (joined : LeafMerged (page.deleteTuple key).1 sibling merged) :
      LeafDeleted cut key page [page, sibling] [merged] (link (h := 0) merged)

theorem Repaired.leaves_above {size id : Nat} {left : List (Tree (h + 1) × Nat)} {child : Tree (h + 1)}
    {right : List (Nat × Tree (h + 1))} {node' : Branch (Tree (h + 1))}
    (repaired : Repaired cut size id left child right node' fix) :
    Tree.leaves (h := h + 2) node' = Tree.leaves (h := h + 2) ⟨id, Row.close left child right⟩ ∧
      fix = none := by
  have rotation : ∀ {first second first' second' : Tree (h + 1)} {key middle : Nat},
      Rotated cut first key second first' middle second' →
        first'.leaves ++ second'.leaves = first.leaves ++ second.leaves := by
    rintro ⟨_, firstRow⟩ ⟨_, secondRow⟩ ⟨_, firstRow'⟩ ⟨_, secondRow'⟩ key middle ⟨-, -, joined, -⟩
    have trails := congrArg (fun row => row.trail Tree.leaves fun _ => []) joined
    simpa [leaves_node] using trails.symm
  have merging : ∀ {first second merged : Tree (h + 1)} {key : Nat},
      Merged first key second merged → merged.leaves = first.leaves ++ second.leaves := by
    rintro ⟨_, firstRow⟩ ⟨_, secondRow⟩ merged key rfl
    simp [leaves_node]
  cases repaired with
  | lendLeft lends rotated =>
    refine ⟨?_, rfl⟩
    rw [leaves_focus, leaves_focus, Row.after_cons, Row.before_cons, List.nil_append, List.append_nil,
      List.append_assoc,
      ← List.append_assoc (Tree.leaves _), rotation rotated, List.append_assoc]
  | lendRight lends rotated =>
    refine ⟨?_, rfl⟩
    rw [leaves_focus, leaves_focus, Row.after_cons, Row.after_cons, List.nil_append, List.nil_append,
      ← List.append_assoc (Tree.leaves _),
      rotation rotated, List.append_assoc]
  | mergeLeft refused joined pages erased =>
    refine ⟨?_, rfl⟩
    rw [erased.leaves, leaves_focus, leaves_focus, Row.before_cons, List.append_nil, merging joined]
    simp only [List.append_assoc]
  | mergeRight refused joined pages erased =>
    refine ⟨?_, rfl⟩
    rw [erased.leaves, leaves_focus, leaves_focus, Row.after_cons, List.nil_append, merging joined]
    simp only [List.append_assoc]
  | orphan => exact ⟨rfl, rfl⟩

private theorem Repaired.leaves_bottom {size id : Nat} {left : List (Tree 0 × Nat)} {page : Tree 0}
    {right : List (Nat × Tree 0)} {node' : Branch (Tree 0)}
    (repaired : Repaired cut size id left (page.deleteTuple key).1 right node' fix) :
    ∃ first old new second, Tree.leaves (h := 1) ⟨id, Row.close left page right⟩ = first ++ (old ++ second) ∧
      Tree.leaves (h := 1) node' = first ++ (new ++ second) ∧ LeafDeleted cut key page old new fix := by
  cases repaired with
  | @lendLeft sibling _ sibling' page' _ middle left _ lends rotated =>
    refine ⟨Row.before (Tree.leaves (h := 0)) (fun _ => []) left, _, _,
      Row.after (Tree.leaves (h := 0)) (fun _ => []) right, ?_, ?_, .lentLeft rotated⟩
    · rw [leaves_focus]
      simp [Tree.leaves]
    · rw [leaves_focus]
      simp [Tree.leaves]
  | @lendRight sibling _ sibling' page' _ middle left right lends rotated =>
    refine ⟨Row.before (Tree.leaves (h := 0)) (fun _ => []) left, _, _,
      Row.after (Tree.leaves (h := 0)) (fun _ => []) right, ?_, ?_, .lentRight rotated⟩
    · rw [leaves_focus]
      simp [Tree.leaves]
    · rw [leaves_focus]
      simp [Tree.leaves]
  | @mergeLeft sibling _ merged _ left _ _ refused joined pages erased =>
    refine ⟨Row.before (Tree.leaves (h := 0)) (fun _ => []) left, _, _,
      Row.after (Tree.leaves (h := 0)) (fun _ => []) right, ?_, ?_, .mergedLeft joined⟩
    · rw [leaves_focus]
      simp [Tree.leaves]
    · rw [erased.leaves, leaves_focus]
      simp [Tree.leaves]
  | @mergeRight sibling _ merged _ right _ refused joined pages erased =>
    refine ⟨[], _, _, Row.after (Tree.leaves (h := 0)) (fun _ => []) right, ?_, ?_, .mergedRight joined⟩
    · simp [Tree.leaves]
    · rw [erased.leaves]
      simp [Tree.leaves]
  | orphan => exact ⟨[], [page], [(page.deleteTuple key).1], [], rfl, rfl, .alone⟩

theorem Deleted.leaves (deleted : Deleted cut key tree tree' fix) :
    ∃ page first old new second, Located key page.pageId tree ∧ page ∈ tree.leaves ∧
      tree.leaves = first ++ (old ++ second) ∧
      tree'.leaves = first ++ (new ++ second) ∧ LeafDeleted cut key page old new fix := by
  induction h generalizing fix with
  | zero =>
    obtain ⟨rfl, rfl⟩ := deleted_leaf.mp deleted
    exact ⟨tree, [], _, _, [], rfl, by simp, by simp, by simp, .alone⟩
  | succ h ih =>
    obtain ⟨id, row⟩ := tree
    obtain ⟨left, child, right, child', below, here, rfl, found, deletedChild, rfl, repaired⟩ :=
      deleted_node.mp deleted
    obtain ⟨page, first, old, new, second, located, member, before, after, leaf⟩ := ih deletedChild
    have located : Located (h := h + 1) key page.pageId ⟨id, Row.close left child right⟩ :=
      ⟨left, child, right, rfl, found, located⟩
    have member : page ∈ Tree.leaves (h := h + 1) ⟨id, Row.close left child right⟩ :=
      mem_leaves_node.mpr ⟨child, by simp, member⟩
    -- Everything but a repair right above the leaves happens below.
    have inside : Tree.leaves (h := h + 1) tree' =
        Tree.leaves (h := h + 1) ⟨id, Row.close left child' right⟩ → here = none →
        ∃ page first old new second, Located (h := h + 1) key page.pageId ⟨id, Row.close left child right⟩ ∧
          page ∈ Tree.leaves (h := h + 1) ⟨id, Row.close left child right⟩ ∧
          Tree.leaves (h := h + 1) ⟨id, Row.close left child right⟩ = first ++ (old ++ second) ∧
          Tree.leaves (h := h + 1) tree' = first ++ (new ++ second) ∧
            LeafDeleted cut key page old new (here.or below) := by
      rintro same rfl
      refine ⟨page, Row.before Tree.leaves (fun _ => []) left ++ first, old, new,
        second ++ Row.after Tree.leaves (fun _ => []) right,
        located, member, ?_, ?_, by simpa using leaf⟩
      · rw [leaves_focus, before]
        simp
      · rw [same, leaves_focus, after]
        simp
    split at repaired
    · cases h with
      | zero =>
        obtain ⟨rfl, rfl⟩ := deleted_leaf.mp deletedChild
        obtain ⟨first, old, new, second, before, after, leaf⟩ := repaired.leaves_bottom
        exact ⟨child, first, old, new, second, ⟨left, child, right, rfl, found, rfl⟩,
          mem_leaves_node.mpr ⟨child, by simp, by simp⟩,
          before, after, by simpa using leaf⟩
      | succ h =>
        obtain ⟨same, none⟩ := repaired.leaves_above
        exact inside same none
    · obtain ⟨rfl, none⟩ := repaired
      exact inside rfl none

end Tree
end Datashil
