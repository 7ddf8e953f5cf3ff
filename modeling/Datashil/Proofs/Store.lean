import Datashil.BTree
import Datashil.Library.Run
import Datashil.Tree

/-! Running the page store: what each primitive does, so that the tree's
operations can be executed step by step. -/

namespace Datashil.BTree
open Library

variable {tree : BTree} {pid other : Nat} {page : Page}

@[simp] theorem pages_record (access : Access) : (tree.record access).pages = tree.pages := rfl
@[simp] theorem rootPageId_record (access : Access) : (tree.record access).rootPageId = tree.rootPageId := rfl
@[simp] theorem newPageOffsetIndex_record (access : Access) :
    (tree.record access).newPageOffsetIndex = tree.newPageOffsetIndex := rfl

@[simp] theorem pages_setPage : (tree.setPage pid page).pages other = if other = pid then page
    else tree.pages other :=
  rfl
@[simp] theorem rootPageId_setPage : (tree.setPage pid page).rootPageId = tree.rootPageId := rfl
@[simp] theorem newPageOffsetIndex_setPage :
    (tree.setPage pid page).newPageOffsetIndex = tree.newPageOffsetIndex :=
  rfl

def allocated (tree : BTree) : BTree :=
  (({ tree with newPageOffsetIndex := tree.newPageOffsetIndex + 1 }.setPage tree.newPageOffsetIndex
    .blank).record
    (.allocate tree.newPageOffsetIndex)).record (.request tree.newPageOffsetIndex)

@[simp] theorem pages_allocated :
    tree.allocated.pages other = if other = tree.newPageOffsetIndex then .blank else tree.pages other := rfl
@[simp] theorem rootPageId_allocated : tree.allocated.rootPageId = tree.rootPageId := rfl
@[simp] theorem newPageOffsetIndex_allocated :
    tree.allocated.newPageOffsetIndex = tree.newPageOffsetIndex + 1 :=
  rfl

/-- Two states that differ in the recorded accesses at most. A search makes no other difference, so
what is proved of the tree before one holds after it. -/
structure Agrees (tree other : BTree) : Prop where
  pages : other.pages = tree.pages
  root : other.rootPageId = tree.rootPageId
  counter : other.newPageOffsetIndex = tree.newPageOffsetIndex

theorem Agrees.refl (tree : BTree) : tree.Agrees tree := ⟨rfl, rfl, rfl⟩

theorem Agrees.trans {first second third : BTree} (left : first.Agrees second) (right : second.Agrees third) :
    first.Agrees third :=
  ⟨right.pages.trans left.pages, right.root.trans left.root, right.counter.trans left.counter⟩

/-! Programs that start with an access. -/

theorem requestPage_bind {α : Type} (next : Unit → TreeM α) :
    (requestPage pid >>= next) tree = next () (tree.record (.request pid)) :=
  rfl

theorem readPage_bind {α : Type} (next : Page → TreeM α) :
    (readPage pid >>= next) tree = next (tree.pages pid) (tree.record (.read pid)) :=
  rfl

theorem releasePage_bind {α : Type} {isDirty : Bool} (next : Unit → TreeM α) :
    (releasePage pid isDirty >>= next) tree = next () (tree.record (.release pid isDirty)) := rfl

theorem readInternal_bind {α : Type} {page : InternalPage} (stored : tree.pages pid = .internal page)
    (next : InternalPage → TreeM α) :
    (readInternal pid >>= next) tree = next page (tree.record (.read pid)) := by
  simp only [readInternal, bind_assoc, readPage_bind, stored, pure_bind]

theorem readLeaf_bind {α : Type} {page : LeafPage} (stored : tree.pages pid = .leaf page)
    (next : LeafPage → TreeM α) :
    (readLeaf pid >>= next) tree = next page (tree.record (.read pid)) := by
  simp only [readLeaf, bind_assoc, readPage_bind, stored, pure_bind]

section Ran
variable {post : Unit → BTree → Prop}

theorem ran_requestPage : Ran (requestPage pid) tree post ↔ post () (tree.record (.request pid)) :=
  ran_of_eq rfl

theorem ran_releasePage {isDirty : Bool} :
    Ran (releasePage pid isDirty) tree post ↔ post () (tree.record (.release pid isDirty)) :=
  ran_of_eq rfl

theorem ran_writePage : Ran (writePage pid page) tree post ↔
    post () ((tree.setPage pid page).record (.write pid)) :=
  ran_of_eq rfl

theorem ran_readPage {post : Page → BTree → Prop} :
    Ran (readPage pid) tree post ↔ post (tree.pages pid) (tree.record (.read pid)) := ran_of_eq rfl

theorem ran_allocateNewPage {post : Nat → BTree → Prop} :
    Ran allocateNewPage tree post ↔ post tree.newPageOffsetIndex tree.allocated := ran_of_eq rfl

theorem ran_readInternal (page : InternalPage) {post : InternalPage → BTree → Prop}
    (stored : tree.pages pid = .internal page) :
    Ran (readInternal pid) tree post ↔ post page (tree.record (.read pid)) := by
  simp only [readInternal, ran_bind, ran_readPage, stored, ran_pure]

theorem ran_readLeaf (page : LeafPage) {post : LeafPage → BTree → Prop}
    (stored : tree.pages pid = .leaf page) :
    Ran (readLeaf pid) tree post ↔ post page (tree.record (.read pid)) := by
  simp only [readLeaf, ran_bind, ran_readPage, stored, ran_pure]

theorem ran_readOverflow (page : OverflowPage) {post : OverflowPage → BTree → Prop}
    (stored : tree.pages pid = .overflow page) :
    Ran (readOverflow pid) tree post ↔ post page (tree.record (.read pid)) := by
  simp only [readOverflow, ran_bind, ran_readPage, stored, ran_pure]

theorem ran_setNewRoot (magicNumber oldRoot : Nat) {newRoot : Nat}
    (stored : tree.pages DATABASE_META_PAGE_ID = .databaseMeta magicNumber oldRoot) :
    Ran (setNewRoot newRoot) tree fun _ tree' => tree'.rootPageId = newRoot ∧
      tree'.newPageOffsetIndex = tree.newPageOffsetIndex ∧
      ∀ pid, tree'.pages pid = if pid = DATABASE_META_PAGE_ID then .databaseMeta magicNumber newRoot
        else tree.pages pid := by
  simp only [setNewRoot, ran_bind, ran_requestPage, ran_readPage, pages_record, stored, ran_writePage,
    ran_releasePage, ran_modify]
  simp

end Ran
end Datashil.BTree
