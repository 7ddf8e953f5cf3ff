import Datashil.Proofs.FindPageToWrite
import Datashil.Proofs.LeafRepair

/-! The pages of a store around the children a deletion repairs. -/

namespace Datashil
open Library LeafPage BTree

namespace Tree
variable {h : Nat} {tree : Tree h} {pages pages' : Nat → Page} {id key middle : Nat}
  {left : List (Tree h × Nat)} {first second first' second' merged : Tree h} {right : List (Nat × Tree h)}

/-! ### Links -/

def relinkedPages (fix : Option (Nat × Nat)) (pages : Nat → Page) (pid : Nat) : Page :=
  match fix with
  | none => pages pid
  | some (target, leftPid) =>
    if pid = target then (pages pid).mapLeaf fun page => { page with leftPid } else pages pid

@[simp] theorem relinkedPages_none : relinkedPages none pages = pages := rfl

@[simp] theorem relink_none (page : LeafPage) : relink none page = page := rfl

@[simp] theorem pageId_relink (fix : Option (Nat × Nat)) (page : LeafPage) :
    (relink fix page).pageId = page.pageId := by
  cases fix with
  | none => rfl
  | some entry =>
    simp only [relink]
    split <;> rfl

@[simp] theorem rightPid_relink (fix : Option (Nat × Nat)) (page : LeafPage) :
    (relink fix page).rightPid = page.rightPid := by
  cases fix with
  | none => rfl
  | some entry =>
    simp only [relink]
    split <;> rfl

@[simp] theorem tuples_relink (fix : Option (Nat × Nat)) (page : LeafPage) :
    (relink fix page).tuples = page.tuples := by
  cases fix with
  | none => rfl
  | some entry =>
    simp only [relink]
    split <;> rfl

@[simp] theorem used_relink (fix : Option (Nat × Nat)) (page : LeafPage) :
    (relink fix page).used = page.used := by
  cases fix with
  | none => rfl
  | some entry =>
    simp only [relink]
    split <;> rfl

theorem valid_relink (fix : Option (Nat × Nat)) {page : LeafPage} (valid : page.Valid) :
    (relink fix page).Valid := by
  cases fix with
  | none => exact valid
  | some entry =>
    simp only [relink]
    split
    · exact ⟨valid.directory, valid.lengths, valid.placed, valid.accounting, valid.garbage, valid.sorted⟩
    · exact valid

theorem Holds.relinked {fix : Option (Nat × Nat)} (holds : Holds pages tree)
    (same : ∀ pid ∈ tree.pids, pages' pid = relinkedPages fix pages pid) :
    Holds pages' (tree.mapLeaves (relink fix)) := by
  refine holds.mapLeaves (pageId_relink fix) fun pid inside => ?_
  rw [same pid inside]
  cases fix with
  | none =>
    rcases holds.kind inside with ⟨page, found⟩ | ⟨leaf, -, -, found⟩ <;> rw [relinkedPages_none, found]
      <;> rfl
  | some entry =>
    obtain ⟨target, leftPid⟩ := entry
    rcases holds.kind inside with ⟨page, found⟩ | ⟨leaf, -, named, found⟩
    · simp only [relinkedPages, found, Page.mapLeaf, ite_self]
    · simp only [relinkedPages, found, Page.mapLeaf, relink, named]
      split <;> rfl

/-- What holds a leaf goes on holding one, be it in the tree or not. -/
def LeavesKept (pages pages' : Nat → Page) : Prop :=
  ∀ pid page, pages pid = .leaf page → ∃ page', pages' pid = .leaf page'

theorem LeavesKept.trans {pages'' : Nat → Page} (first : LeavesKept pages pages')
    (second : LeavesKept pages' pages'') :
    LeavesKept pages pages'' := by
  intro pid page stored
  obtain ⟨page', kept⟩ := first pid page stored
  exact second pid page' kept

theorem leavesKept_relinked (fix : Option (Nat × Nat)) (pages : Nat → Page) :
    LeavesKept pages (relinkedPages fix pages) := by
  intro pid page stored
  cases fix with
  | none => exact ⟨page, stored⟩
  | some entry =>
    simp only [relinkedPages, stored, Page.mapLeaf]
    split
    · exact ⟨_, rfl⟩
    · exact ⟨page, rfl⟩

/-! ### What a repair comes to -/

def onlyChild : {h : Nat} → Tree h → Option Nat
  | 0, _ => none
  | _ + 1, node => if (Branch.row node).rest = [] then some (Branch.row node).head.pid else none

theorem onlyChild_eq_none {row : Row Nat (Tree h)} :
    onlyChild (h := h + 1) ⟨id, row⟩ = none ↔ row.rest ≠ [] := by
  simp [onlyChild]

/-- How a deletion ends at a page: with the expected report, or with a root right above the leaves
giving way to its only child. -/
def Ending (st st' : BTree) (tree tree' : Tree h) (expected result : DeleteStatus) : Prop :=
  (st'.rootPageId = st.rootPageId ∧ st'.pages DATABASE_META_PAGE_ID = st.pages DATABASE_META_PAGE_ID ∧
    result = expected ∧
      (h = 1 → st.rootPageId = tree.pid → tree.onlyChild = none → tree'.onlyChild = none)) ∨
    (h = 1 ∧ st.rootPageId = tree'.pid ∧ tree'.onlyChild = some st'.rootPageId ∧
      st'.pages DATABASE_META_PAGE_ID = .databaseMeta DATABASE_MAGIC_NUMBER st'.rootPageId ∧
      result = ⟨false, .invalidPage, 0, expected.success⟩)

/-- From a store that holds a tree to one that holds the changed tree. -/
structure Changed (st st' : BTree) (tree tree' : Tree h) (fix : Option (Nat × Nat)) : Prop where
  holds : Holds st'.pages (tree'.mapLeaves (relink fix))
  counter : st'.newPageOffsetIndex = st.newPageOffsetIndex
  frame : ∀ pid, pid ∉ tree.pids → pid ≠ DATABASE_META_PAGE_ID →
    st'.pages pid = relinkedPages fix st.pages pid
  leaves : LeavesKept st.pages st'.pages

def Repairs (cut : Nat → Nat → Prop) (st : BTree) (id : Nat) (left : List (Tree h × Nat)) (child : Tree h)
    (right : List (Nat × Tree h)) (below result : DeleteStatus) (st' : BTree) : Prop :=
  ∃ node' fix, Repaired cut below.currentSize id left child right node' fix ∧
    Changed st st' (h := h + 1) ⟨id, Row.close left child right⟩ node' fix ∧
    Ending st st' (h := h + 1) ⟨id, Row.close left child right⟩ node'
      (repairReport (siblingLends left right below.currentSize)
        (left.length + right.length) below.success) result

theorem Repairs.of_agrees {cut : Nat → Nat → Prop} {st st₁ st' : BTree} {child : Tree h}
    {below result : DeleteStatus}
    (agrees : st.Agrees st₁) (repairs : Repairs cut st₁ id left child right below result st') :
    Repairs cut st id left child right below result st' := by
  obtain ⟨node', fix, repaired, ⟨holds, counter, frame, leaves⟩, ending⟩ := repairs
  rw [agrees.pages] at frame leaves
  rw [Ending, agrees.root, agrees.pages] at ending
  exact ⟨node', fix, repaired, ⟨holds, counter.trans agrees.counter, frame, leaves⟩, ending⟩

theorem checkUnderflow_spec {page : InternalPage} (few : page.numKeys ≤ NUM_KEY_SLOTS) :
    page.checkUnderflow 0 =
      (page.numKeys * SIZEOF_KEY + (page.numKeys + 1) * SIZEOF_PAGE_ID,
        decide (page.numKeys * SIZEOF_KEY + (page.numKeys + 1) * SIZEOF_PAGE_ID ≤
          INTERNAL_UNDERFLOW_THRESHOLD)) := by
  simp only [NUM_KEY_SLOTS] at few
  have exact : u16 (((0 : Nat) : Int) + (page.numKeys * SIZEOF_KEY : Nat) +
    ((page.numKeys + 1) * SIZEOF_PAGE_ID : Nat)) =
      page.numKeys * SIZEOF_KEY + (page.numKeys + 1) * SIZEOF_PAGE_ID :=
    u16_eq (by omega) (by simp only [SIZEOF_KEY, SIZEOF_PAGE_ID]; omega)
  simp only [InternalPage.checkUnderflow, exact]

/-! ### Two neighbours -/

theorem pids_pair : pids (h := h + 1) ⟨id, Row.close left first ((key, second) :: right)⟩ =
    id :: (Row.before pids (fun _ => []) left ++
      (first.pids ++ (second.pids ++ Row.after pids (fun _ => []) right))) := by
  rw [pids_focus, Row.after_cons, List.nil_append]

/-- What the distinctness of all ids says around two neighbours. -/
structure Paired (id : Nat) (left : List (Tree h × Nat)) (first second : Tree h)
    (right : List (Nat × Tree h)) : Prop where
  node : id ∉ first.pids ∧ id ∉ second.pids
  nodup : first.pids.Nodup ∧ second.pids.Nodup
  apart : ∀ pid ∈ first.pids, pid ∉ second.pids
  left : ∀ sibling key, (sibling, key) ∈ left → ∀ pid ∈ sibling.pids, pid ≠ id ∧ pid ∉ first.pids ∧
    pid ∉ second.pids
  right : ∀ key sibling, (key, sibling) ∈ right → ∀ pid ∈ sibling.pids, pid ≠ id ∧ pid ∉ first.pids ∧
    pid ∉ second.pids

theorem paired (nodup : (pids (h := h + 1) ⟨id, Row.close left first ((key, second) :: right)⟩).Nodup) :
    Paired id left first second right := by
  have here := focused nodup
  have next : Focused id ((first, key) :: left) second right := focused nodup
  refine ⟨⟨here.node, next.node⟩, ⟨here.nodup, next.nodup⟩, ?_, ?_, ?_⟩
  · exact fun pid inside => ((next.left first key (.head _)).2 pid inside).2
  · intro sibling other member pid inside
    exact ⟨((here.left sibling other member).2 pid inside).1,
      ((here.left sibling other member).2 pid inside).2,
      ((next.left sibling other (.tail _ member)).2 pid inside).2⟩
  · intro other sibling member pid inside
    exact ⟨((next.right other sibling member).2 pid inside).1,
      ((here.right other sibling (.tail _ member)).2 pid inside).2,
      ((next.right other sibling member).2 pid inside).2⟩

theorem Holds.pair (holds : Holds (h := h + 1) pages ⟨id, Row.close left first ((key, second) :: right)⟩)
    (nodup : (pids (h := h + 1) ⟨id, Row.close left first ((key, second) :: right)⟩).Nodup)
    {page' : InternalPage}
    (stored : pages' id = .internal page') (named : page'.pageId = id)
    (shown : page'.Shows (Row.close (leftPids left) first.pid ((middle, second.pid) :: rightPids right)))
    (firstHolds : Holds pages' first') (firstPid : first'.pid = first.pid)
    (secondHolds : Holds pages' second')
    (secondPid : second'.pid = second.pid)
    (frame : ∀ pid, pid ≠ id → pid ∉ first.pids → pid ∉ second.pids → pages' pid = pages pid) :
    Holds (h := h + 1) pages' ⟨id, Row.close left first' ((middle, second') :: right)⟩ := by
  have apart := paired nodup
  obtain ⟨-, lefts, -, rights⟩ := holds_focus.mp holds
  refine holds_focus.mpr ⟨⟨page', stored, named, by simpa [rightPids, firstPid, secondPid] using shown⟩,
    ?_, firstHolds, ?_⟩
  · intro sibling other member
    refine (lefts sibling other member).congr fun pid inside => ?_
    obtain ⟨own, outside⟩ := apart.left sibling other member pid inside
    exact frame pid own outside.1 outside.2
  · intro other sibling member
    rcases List.mem_cons.mp member with same | member
    · cases same
      exact secondHolds
    · refine (rights other sibling (.tail _ member)).congr fun pid inside => ?_
      obtain ⟨own, outside⟩ := apart.right other sibling member pid inside
      exact frame pid own outside.1 outside.2

theorem Holds.merge (holds : Holds (h := h + 1) pages ⟨id, Row.close left first ((key, second) :: right)⟩)
    (nodup : (pids (h := h + 1) ⟨id, Row.close left first ((key, second) :: right)⟩).Nodup)
    {page' : InternalPage}
    (stored : pages' id = .internal page') (named : page'.pageId = id)
    {row : Row Nat (Tree h)} (shown : page'.Shows (row.map Tree.pid))
    (erased : Erased left key merged right row)
    (mergedHolds : Holds pages' merged)
    (frame : ∀ pid, pid ≠ id → pid ∉ first.pids → pid ∉ second.pids → pages' pid = pages pid) :
    Holds (h := h + 1) pages' ⟨id, row⟩ := by
  have apart := paired nodup
  obtain ⟨-, lefts, -, rights⟩ := holds_focus.mp holds
  refine holds_node.mpr ⟨⟨page', stored, named, shown⟩, fun sibling member => ?_⟩
  rw [erased.1] at member
  rcases Row.mem_children_close.mp member with ⟨other, member⟩ | rfl | ⟨other, member⟩
  · refine (lefts sibling other member).congr fun pid inside => ?_
    obtain ⟨own, outside⟩ := apart.left sibling other member pid inside
    exact frame pid own outside.1 outside.2
  · exact mergedHolds
  · refine (rights other sibling (.tail _ member)).congr fun pid inside => ?_
    obtain ⟨own, outside⟩ := apart.right other sibling member pid inside
    exact frame pid own outside.1 outside.2

theorem Holds.page (holds : Holds (h := h + 1) pages ⟨id, Row.close left first ((key, second) :: right)⟩)
    (nodup : (pids (h := h + 1) ⟨id, Row.close left first ((key, second) :: right)⟩).Nodup) :
    ∃ page, pages id = .internal page ∧ page.pageId = id ∧
      page.Shows (Row.close (leftPids left) first.pid ((key, second.pid) :: rightPids right)) ∧
      first.pid ∉ InternalPage.leftChildren (leftPids left) ∧
        second.pid ∉ InternalPage.leftChildren (leftPids left) ∧
      first.pid ≠ second.pid := by
  have apart := paired nodup
  obtain ⟨⟨page, stored, named, shown⟩, -⟩ := holds_focus.mp holds
  have outside : ∀ {pid}, (∀ sibling key, (sibling, key) ∈ left → pid ∉ sibling.pids) →
      pid ∉ InternalPage.leftChildren (leftPids left) := by
    intro pid away inside
    obtain ⟨other, member⟩ := InternalPage.mem_leftChildren.mp inside
    obtain ⟨⟨sibling, key⟩, among, same⟩ := List.mem_map.mp member
    cases same
    exact away sibling key among pid_mem_pids
  refine ⟨page, stored, named, by simpa [rightPids] using shown, ?_, ?_, ?_⟩
  · exact outside fun sibling other member inside =>
      (apart.left sibling other member _ inside).2.1 pid_mem_pids
  · exact outside fun sibling other member inside =>
      (apart.left sibling other member _ inside).2.2 pid_mem_pids
  · exact fun same => apart.apart _ pid_mem_pids (same ▸ pid_mem_pids)

theorem eq_nil_of_error {α ε : Type} {entries : List α} {f : α → Nat} {missing : ε}
    (found : (Except.error missing : Except ε Nat).toOption = entries.head?.map f) : entries = [] := by
  cases entries with
  | nil => rfl
  | cons entry entries => cases found

theorem eq_cons_of_ok {α ε : Type} {entries : List α} {f : α → Nat} {sibling : Nat}
    (found : (Except.ok sibling : Except ε Nat).toOption = entries.head?.map f) :
    ∃ entry rest, entries = entry :: rest ∧ sibling = f entry := by
  cases entries with
  | nil => cases found
  | cons entry entries => exact ⟨entry, entries, rfl, Option.some.inj found⟩

theorem Holds.siblings {child : Tree h} (holds : Holds (h := h + 1) pages ⟨id, Row.close left child right⟩)
    (nodup : (pids (h := h + 1) ⟨id, Row.close left child right⟩).Nodup) :
    ∃ page, pages id = .internal page ∧ ∀ missing,
      (page.leftSibling child.pid missing).toOption = left.head?.map (fun entry => entry.1.pid) ∧
      (page.rightSibling child.pid missing).toOption = right.head?.map fun entry => entry.2.pid := by
  obtain ⟨⟨page, stored, -, shown⟩, -⟩ := holds_focus.mp holds
  have fresh : child.pid ∉ InternalPage.leftChildren (leftPids left) := by
    intro inside
    obtain ⟨other, member⟩ := InternalPage.mem_leftChildren.mp inside
    obtain ⟨⟨sibling, key⟩, among, same⟩ := List.mem_map.mp member
    exact (((focused nodup).left sibling key among).2 child.pid ((Prod.mk.inj same).1 ▸ pid_mem_pids)).2
      pid_mem_pids
  refine ⟨page, stored, fun missing => ⟨?_, ?_⟩⟩
  · rw [shown.leftSibling fresh]
    cases left <;> rfl
  · rw [shown.rightSibling fresh]
    cases right <;> rfl

end Tree
end Datashil
